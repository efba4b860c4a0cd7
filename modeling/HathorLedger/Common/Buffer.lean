import HathorLedger.Types

/-!
# Buffers with a cursor

The reader of `common/buffer.c`, with `common/read.c` and `bip32_path_read` of `common/bip32.c`. A
`buffer_t` points into an array and carries a size and an offset; all arithmetic on them is
`size_t` arithmetic. The functions that fail return `false` together with whatever they have
written to their output argument.

For a well-formed buffer (`Buffer.Wf`) all reads are functions of the unread bytes `Buffer.rest`.
The lemmas `Buffer.Wf.readU8_cons`, `Buffer.Wf.readU16_eq` and so on state each operation in this
form.

## Main definitions

* `Buffer`, `Buffer.canRead`, `Buffer.seekCur`, `Buffer.readU8`, `Buffer.readU16`,
  `Buffer.readU32`, `Buffer.readU64`, `Buffer.readBip32Path`, `Buffer.readBytes`, `Buffer.copy`,
  `Buffer.move`.
* `bip32PathRead`: the reader of a BIP32 path.
* `Buffer.Wf`, `Buffer.rest`: well-formed buffers and their unread bytes.
-/

namespace HathorLedger

/-! ### Reading integers -/

def readU16Be (ptr : Bytes) (offset : ℕ) : ℕ := beValue ((ptr.drop offset).take 2)
def readU32Be (ptr : Bytes) (offset : ℕ) : ℕ := beValue ((ptr.drop offset).take 4)
def readU64Be (ptr : Bytes) (offset : ℕ) : ℕ := beValue ((ptr.drop offset).take 8)
def readU16Le (ptr : Bytes) (offset : ℕ) : ℕ := leValue ((ptr.drop offset).take 2)
def readU32Le (ptr : Bytes) (offset : ℕ) : ℕ := leValue ((ptr.drop offset).take 4)
def readU64Le (ptr : Bytes) (offset : ℕ) : ℕ := leValue ((ptr.drop offset).take 8)

/-- `endianness_t`. -/
inductive Endianness
  | be
  | le
  deriving DecidableEq, Repr

/-! ### BIP32 paths -/

/-- The loop of `bip32_path_read` from index `i` on, with `n` components left to read. -/
def bip32PathReadLoop (input : Bytes) (inLen : ℕ) : ℕ → ℕ → ℕ → List ℕ → Bool × List ℕ
  | 0, _, _, path => (true, path)
  | n + 1, i, offset, path =>
    if offset > inLen then (false, path)
    else bip32PathReadLoop input inLen n (i + 1) (offset + 4) (path.set i (readU32Be input offset))

/-- `bip32_path_read`. The path is written before its components are checked. -/
def bip32PathRead (input : Bytes) (inLen : ℕ) (out : Bip32Path) : Bool × Bip32Path :=
  if inLen < 1 ∨ byteAt input 0 > maxBip32Path ∨ byteAt input 0 * 4 + 1 > inLen then (false, out)
  else
    let length := byteAt input 0
    let (complete, path) := bip32PathReadLoop input inLen length 0 1 out.path
    let out : Bip32Path := { length, path }
    if !complete then (false, out)
    else if out.length > 4 ∧ out.path.getD 4 0 > maxDerivationIndex then (false, out)
    else if out.length > 3 ∧ out.path.getD 3 0 > 1 then (false, out)
    else (true, out)

/-! ### The operations on buffers -/

/-- `buffer_t`. -/
structure Buffer where
  ptr : Bytes
  size : ℕ
  offset : ℕ
  deriving DecidableEq, Repr

namespace Buffer

def canRead (b : Buffer) (n : ℕ) : Bool := sizeSub b.size b.offset ≥ n

def seekSet (b : Buffer) (offset : ℕ) : Bool × Buffer :=
  if offset > b.size then (false, b) else (true, { b with offset })

def seekCur (b : Buffer) (offset : ℕ) : Bool × Buffer :=
  if sizeAdd b.offset offset < b.offset ∨ sizeAdd b.offset offset > b.size then (false, b)
  else (true, { b with offset := sizeAdd b.offset offset })

def seekEnd (b : Buffer) (offset : ℕ) : Bool × Buffer :=
  if offset > b.size then (false, b) else (true, { b with offset := sizeSub b.size offset })

/-- The common body of `buffer_read_u8`, `buffer_read_u16`, `buffer_read_u32` and
`buffer_read_u64`: `width` bytes are turned into a number by `value`. The output is set to zero
when the bytes are missing. -/
def readUint (b : Buffer) (width : ℕ) (value : Bytes → ℕ → ℕ) : Bool × ℕ × Buffer :=
  if !b.canRead width then (false, 0, b)
  else (true, value b.ptr b.offset, (b.seekCur width).2)

def readU8 (b : Buffer) : Bool × ℕ × Buffer := b.readUint 1 byteAt

def readU16 (b : Buffer) (e : Endianness) : Bool × ℕ × Buffer :=
  b.readUint 2 (if e = .be then readU16Be else readU16Le)

def readU32 (b : Buffer) (e : Endianness) : Bool × ℕ × Buffer :=
  b.readUint 4 (if e = .be then readU32Be else readU32Le)

def readU64 (b : Buffer) (e : Endianness) : Bool × ℕ × Buffer :=
  b.readUint 8 (if e = .be then readU64Be else readU64Le)

def readBip32Path (b : Buffer) (out : Bip32Path) : Bool × Bip32Path × Buffer :=
  let (accepted, out) := bip32PathRead (b.ptr.drop b.offset) (sizeSub b.size b.offset) out
  if !accepted then (false, out, b)
  else (true, out, (b.seekCur (1 + 4 * out.length)).2)

/-- `buffer_read_bytes`, with `out` the cells of the output array and `outLen` its capacity. -/
def readBytes (b : Buffer) (out : Bytes) (outLen len : ℕ) : Bool × Bytes × Buffer :=
  if len > sizeSub b.size b.offset ∨ len > outLen then (false, out, b)
  else (true, memmove out 0 ((b.ptr.drop b.offset).take len), (b.seekCur len).2)

/-- `buffer_copy`. The bytes are written to `out` from cell `at_` on; C passes `out + at_`. -/
def copy (b : Buffer) (out : Bytes) (at_ outLen : ℕ) : Bool × Bytes :=
  if sizeSub b.size b.offset > outLen then (false, out)
  else (true, memmove out at_ ((b.ptr.drop b.offset).take (sizeSub b.size b.offset)))

def move (b : Buffer) (out : Bytes) (outLen : ℕ) : Bool × Bytes × Buffer :=
  match b.copy out 0 outLen with
  | (false, out) => (false, out, b)
  | (true, out) => (true, out, (b.seekCur outLen).2)

/-- The output of `buffer_read_u8` is a byte, also where nothing is read. -/
theorem readU8_lt (b : Buffer) : b.readU8.2.1 < 256 := by
  unfold readU8 readUint
  split_ifs
  · exact Nat.zero_lt_succ _
  · exact byteAt_lt _ _

/-! ### Well-formed buffers -/

/-- A buffer over the first cells of an array, with the cursor inside it. -/
structure Wf (b : Buffer) : Prop where
  size_le : b.size ≤ b.ptr.length
  offset_le : b.offset ≤ b.size
  size_lt : b.size < sizeMod

/-- The unread bytes. -/
def rest (b : Buffer) : Bytes := (b.ptr.take b.size).drop b.offset

/-- The buffer that the dispatcher builds for the data of a command. -/
def ofBytes (data : Bytes) : Buffer := { ptr := data, size := data.length, offset := 0 }

@[simp] theorem rest_ofBytes (data : Bytes) : (ofBytes data).rest = data := by simp [ofBytes, rest]

theorem wf_ofBytes {data : Bytes} (h : data.length < sizeMod) : (ofBytes data).Wf :=
  ⟨le_rfl, Nat.zero_le _, h⟩

/-- The buffer with the cursor `n` bytes further. -/
def advance (b : Buffer) (n : ℕ) : Buffer := { b with offset := b.offset + n }

theorem rest_advance (b : Buffer) (n : ℕ) : (b.advance n).rest = b.rest.drop n := by
  simp [advance, rest, List.drop_drop]

namespace Wf

variable {b : Buffer}

theorem length_rest (h : b.Wf) : b.rest.length = b.size - b.offset := by
  rw [rest, List.length_drop, List.length_take, min_eq_left h.size_le]

theorem remaining (h : b.Wf) : sizeSub b.size b.offset = b.rest.length := by
  rw [sizeSub_of_le h.offset_le, h.length_rest]

/-- The cells behind the cursor are the unread bytes, as far as the buffer reaches. -/
theorem take_drop_ptr (h : b.Wf) {n : ℕ} (hn : n ≤ b.rest.length) :
    (b.ptr.drop b.offset).take n = b.rest.take n := by
  have hlen := h.length_rest
  rw [rest, List.drop_take, List.take_take, min_eq_left (by omega)]

theorem canRead_iff (h : b.Wf) {n : ℕ} : b.canRead n = true ↔ n ≤ b.rest.length := by
  simp [Buffer.canRead, h.remaining]

theorem seekCur_eq (h : b.Wf) {n : ℕ} (hn : n ≤ b.rest.length) :
    b.seekCur n = (true, b.advance n) := by
  have hlen := h.length_rest
  have hle := h.offset_le
  have hlt := h.size_lt
  have hadd : sizeAdd b.offset n = b.offset + n := sizeAdd_of_lt (by omega)
  rw [Buffer.seekCur, hadd, if_neg (by omega), advance]

theorem advance (h : b.Wf) {n : ℕ} (hn : n ≤ b.rest.length) : (b.advance n).Wf := by
  have hlen := h.length_rest
  have hle := h.offset_le
  exact ⟨h.size_le, by simp only [Buffer.advance]; omega, h.size_lt⟩

theorem readUint_short (h : b.Wf) {n : ℕ} {value : Bytes → ℕ → ℕ} (hn : b.rest.length < n) :
    b.readUint n value = (false, 0, b) := by
  have : b.canRead n = false := by
    rw [Bool.eq_false_iff, ne_eq, h.canRead_iff]
    omega
  simp [Buffer.readUint, this]

theorem readUint_eq (h : b.Wf) {n : ℕ} {value : Bytes → ℕ → ℕ} (hn : n ≤ b.rest.length) :
    b.readUint n value = (true, value b.ptr b.offset, b.advance n) := by
  simp [Buffer.readUint, h.canRead_iff.2 hn, h.seekCur_eq hn]

theorem readU8_nil (h : b.Wf) (hr : b.rest = []) : b.readU8 = (false, 0, b) :=
  h.readUint_short (by simp [hr])

theorem readU8_cons (h : b.Wf) {x : UInt8} {xs : Bytes} (hr : b.rest = x :: xs) :
    b.readU8 = (true, x.toNat, b.advance 1) := by
  have hx : byteAt b.ptr b.offset = x.toNat := by
    have hone := h.take_drop_ptr (n := 1) (by simp [hr])
    have : b.ptr[b.offset]? = some x := by
      have := congrArg (·[0]?) hone
      simpa [hr] using this
    simp [byteAt, List.getD_eq_getElem?_getD, this]
  rw [Buffer.readU8, h.readUint_eq (by simp [hr]), hx]

theorem readU8_eq (h : b.Wf) (hn : 1 ≤ b.rest.length) :
    b.readU8 = (true, byteAt b.rest 0, b.advance 1) := by
  cases hr : b.rest with
  | nil => rw [hr] at hn; exact absurd hn (by decide)
  | cons x xs => rw [h.readU8_cons hr]; rfl

/-- The byte in front of the cursor at the start of the array. -/
theorem byteAt_ptr (h : b.Wf) (h0 : b.offset = 0) (hr : b.rest ≠ []) :
    byteAt b.ptr 0 = byteAt b.rest 0 := by
  have hone := h.take_drop_ptr (n := 1) (List.length_pos_iff.2 hr)
  have := congrArg (fun l => (l[0]?).getD 0) hone
  simpa [byteAt, List.getD_eq_getElem?_getD, h0] using congrArg UInt8.toNat this

theorem readU16_eq (h : b.Wf) (hn : 2 ≤ b.rest.length) :
    b.readU16 .be = (true, beValue (b.rest.take 2), b.advance 2) := by
  rw [← h.take_drop_ptr hn]
  exact h.readUint_eq hn

theorem readU32_eq (h : b.Wf) (hn : 4 ≤ b.rest.length) :
    b.readU32 .be = (true, beValue (b.rest.take 4), b.advance 4) := by
  rw [← h.take_drop_ptr hn]
  exact h.readUint_eq hn

theorem readU64_eq (h : b.Wf) (hn : 8 ≤ b.rest.length) :
    b.readU64 .be = (true, beValue (b.rest.take 8), b.advance 8) := by
  rw [← h.take_drop_ptr hn]
  exact h.readUint_eq hn

theorem readBytes_eq (h : b.Wf) {out : Bytes} {outLen len : ℕ} (hlen : len ≤ b.rest.length)
    (hout : len ≤ outLen) :
    b.readBytes out outLen len = (true, memmove out 0 (b.rest.take len), b.advance len) := by
  rw [Buffer.readBytes, h.remaining, if_neg (by omega), h.seekCur_eq hlen, h.take_drop_ptr hlen]

theorem readBytes_fail (h : b.Wf) {out : Bytes} {outLen len : ℕ}
    (hlen : b.rest.length < len ∨ outLen < len) : b.readBytes out outLen len = (false, out, b) := by
  rw [Buffer.readBytes, h.remaining, if_pos (by omega)]

/-- What a read of one byte that succeeds has taken. -/
theorem of_readU8 (h : b.Wf) {n : ℕ} {b' : Buffer} (hread : b.readU8 = (true, n, b')) :
    ∃ x, b.rest = x :: b'.rest ∧ n = x.toNat ∧ b'.Wf := by
  cases hr : b.rest with
  | nil =>
    rw [h.readU8_nil hr] at hread
    cases hread
  | cons x xs =>
    rw [h.readU8_cons hr] at hread
    obtain ⟨-, rfl, rfl⟩ := Prod.mk.injEq .. ▸ hread
    refine ⟨x, ?_, rfl, h.advance (by simp [hr])⟩
    rw [Buffer.rest_advance, hr]
    rfl

/-- What a read of several bytes that succeeds has taken. -/
theorem of_readBytes (h : b.Wf) {out out' : Bytes} {outLen len : ℕ} {b' : Buffer}
    (hread : b.readBytes out outLen len = (true, out', b')) :
    ∃ bytes, b.rest = bytes ++ b'.rest ∧ bytes.length = len ∧ len ≤ outLen ∧
      out' = memmove out 0 bytes ∧ b'.Wf := by
  by_cases hfail : b.rest.length < len ∨ outLen < len
  · rw [h.readBytes_fail hfail] at hread
    cases hread
  · rw [not_or, not_lt, not_lt] at hfail
    rw [h.readBytes_eq hfail.1 hfail.2] at hread
    obtain ⟨-, rfl, rfl⟩ := Prod.mk.injEq .. ▸ hread
    refine ⟨b.rest.take len, ?_, List.length_take_of_le hfail.1, hfail.2, rfl, h.advance hfail.1⟩
    rw [Buffer.rest_advance, List.take_append_drop]

theorem exists_readU8 (h : b.Wf) {x : UInt8} {xs : Bytes} (hr : b.rest = x :: xs) :
    ∃ b', b.readU8 = (true, x.toNat, b') ∧ b'.rest = xs ∧ b'.Wf := by
  refine ⟨_, h.readU8_cons hr, ?_, h.advance (by simp [hr])⟩
  rw [Buffer.rest_advance, hr]
  rfl

theorem exists_readBytes (h : b.Wf) {bytes xs : Bytes} {outLen : ℕ} (out : Bytes)
    (hr : b.rest = bytes ++ xs) (hout : bytes.length ≤ outLen) :
    ∃ b', b.readBytes out outLen bytes.length = (true, memmove out 0 bytes, b') ∧ b'.rest = xs ∧
      b'.Wf := by
  have hlen : bytes.length ≤ b.rest.length := by simp [hr]
  refine ⟨b.advance bytes.length, ?_, ?_, h.advance hlen⟩
  · rw [h.readBytes_eq hlen hout, hr, List.take_left]
  · rw [Buffer.rest_advance, hr, List.drop_left]

theorem copy_eq (h : b.Wf) {out : Bytes} {at_ outLen : ℕ} (hn : b.rest.length ≤ outLen) :
    b.copy out at_ outLen = (true, memmove out at_ b.rest) := by
  rw [Buffer.copy, h.remaining, if_neg (by omega), h.take_drop_ptr le_rfl, List.take_length]

theorem copy_fail (h : b.Wf) {out : Bytes} {at_ outLen : ℕ} (hn : outLen < b.rest.length) :
    b.copy out at_ outLen = (false, out) := by
  rw [Buffer.copy, h.remaining, if_pos hn]

end Wf

end Buffer

end HathorLedger
