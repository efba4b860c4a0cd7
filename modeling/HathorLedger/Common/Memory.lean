import Mathlib.Data.List.Induction
import Mathlib.Data.List.TakeDrop
import Mathlib.Tactic.Ring

/-!
# Bytes, arrays and fixed-width counters

The C code works on arrays of bytes and on unsigned counters of a fixed width. A byte array is a
list of bytes, one element for each cell, and a counter is a natural number that is reduced
modulo its width wherever the C arithmetic can wrap.

## Main definitions

* `Bytes`: the cells of a byte array.
* `memmove`, `byteAt`, `cstr`, `strncpy`: the C library calls used on arrays.
* `u8`, `sizeAdd`, `sizeSub`: wrapping arithmetic of `uint8_t` and of `size_t`.
* `beValue`, `leValue`: the value of a big-endian or little-endian byte string.
-/

namespace HathorLedger

/-- The cells of a byte array. -/
abbrev Bytes := List UInt8

/-- `memmove(dst + offset, src, n)`, with `n` the length of `src`: the cells from `offset` on are
overwritten and all other cells keep their value. -/
def memmove {α : Type*} (dst : List α) (offset : ℕ) (src : List α) : List α :=
  dst.take offset ++ src ++ dst.drop (offset + src.length)

/-- The byte in cell `i`, as a number. -/
def byteAt (a : Bytes) (i : ℕ) : ℕ := (a.getD i 0).toNat

/-- The text of a NUL-terminated array: the bytes in front of the first NUL. -/
def cstr (a : Bytes) : Bytes := a.takeWhile (· != 0)

/-- `strncpy(dst + offset, src, n)`: at most `n` characters are copied, and NULs follow until `n`
cells are written. Without room for a NUL there is none. -/
def strncpy (dst : Bytes) (offset : ℕ) (src : Bytes) (n : ℕ) : Bytes :=
  memmove dst offset ((cstr src).take n ++ List.replicate (n - (cstr src).length) 0)

/-- Reduction to a `uint8_t`. -/
def u8 (n : ℕ) : ℕ := n % 256

/-- The modulus of `size_t` on the device. -/
def sizeMod : ℕ := 2 ^ 32

/-- The `size_t` sum `a + b`, which wraps around at the modulus. -/
def sizeAdd (a b : ℕ) : ℕ := if sizeMod - a ≤ b then a + b - sizeMod else a + b

/-- The `size_t` difference `a - b`, which wraps around when `b` is larger. -/
def sizeSub (a b : ℕ) : ℕ := if b ≤ a then a - b else sizeMod - (b - a)

/-- The value of a byte string read with the most significant byte first. -/
def beValue (a : Bytes) : ℕ := a.foldl (fun n b => 256 * n + b.toNat) 0

/-- The value of a byte string read with the least significant byte first. -/
def leValue (a : Bytes) : ℕ := beValue a.reverse

/-- The big-endian bytes of `v`, in `n` bytes. -/
def beBytes : ℕ → ℕ → Bytes
  | 0, _ => []
  | n + 1, v => beBytes n (v / 256) ++ [UInt8.ofNat v]

/-! ### Cells and counters -/

section Arrays

variable {α : Type*}

theorem length_memmove {dst src : List α} {offset : ℕ} (h : offset + src.length ≤ dst.length) :
    (memmove dst offset src).length = dst.length := by
  simp only [memmove, List.length_append, List.length_take, List.length_drop]
  omega

/-- The cells up to the end of a write are the old cells in front of it and the written ones. -/
theorem take_memmove {dst src : List α} {offset n : ℕ} (h : offset ≤ dst.length)
    (hn : n = offset + src.length) : (memmove dst offset src).take n = dst.take offset ++ src := by
  subst hn
  have hlen : (dst.take offset ++ src).length = offset + src.length := by simp [h]
  rw [memmove, ← hlen, List.take_left]

/-- Behind the cells in front of a write there are the written ones and the old cells behind them. -/
theorem drop_memmove {dst src : List α} {offset : ℕ} (h : offset ≤ dst.length) :
    (memmove dst offset src).drop offset = src ++ dst.drop (offset + src.length) := by
  have hlen : (dst.take offset).length = offset := List.length_take_of_le h
  rw [memmove, List.append_assoc]
  exact (congrArg (List.drop · _) hlen.symm).trans List.drop_left

/-- A write that goes on right behind another one. -/
theorem memmove_memmove {dst src more : List α} {offset : ℕ} (h : offset ≤ dst.length) :
    memmove (memmove dst offset src) (offset + src.length) more = memmove dst offset (src ++ more) := by
  have hbehind : (memmove dst offset src).drop (offset + src.length + more.length) =
      dst.drop (offset + (src ++ more).length) := by
    rw [Nat.add_assoc, ← List.drop_drop, drop_memmove h, ← List.drop_drop, List.drop_left,
      List.drop_drop, List.length_append, Nat.add_assoc]
  rw [memmove, take_memmove h rfl, hbehind, memmove, List.append_assoc (dst.take offset)]

theorem memmove_zero (dst src : List α) : memmove dst 0 src = src ++ dst.drop src.length := by
  simp [memmove]

/-- Moving the pending cells `n, ..., len - 1` to the front drops the first `n` pending cells. -/
theorem take_memmove_drop {a : List α} {n len : ℕ} (h : len ≤ a.length) (hn : n ≤ len) :
    (memmove a 0 ((a.drop n).take (len - n))).take (len - n) = (a.take len).drop n := by
  have hlen : ((a.drop n).take (len - n)).length = len - n := by
    rw [List.length_take, List.length_drop]
    omega
  rw [take_memmove (Nat.zero_le _) (by omega), List.take_zero, List.nil_append, List.drop_take]

end Arrays

theorem u8_of_lt {n : ℕ} (h : n < 256) : u8 n = n := Nat.mod_eq_of_lt h

theorem u8_lt (n : ℕ) : u8 n < 256 := Nat.mod_lt _ (by decide)

theorem sizeAdd_of_lt {a b : ℕ} (h : a + b < sizeMod) : sizeAdd a b = a + b :=
  if_neg (by omega)

theorem sizeSub_of_le {a b : ℕ} (h : b ≤ a) : sizeSub a b = a - b := if_pos h

/-- A text goes on behind characters that are no NUL. -/
theorem cstr_append_of_ne {text : Bytes} (h : ∀ d ∈ text, d ≠ 0) (rest : Bytes) :
    cstr (text ++ rest) = text ++ cstr rest :=
  List.takeWhile_append_of_pos (by simpa using h)

/-- A text ends at the NUL behind it. -/
theorem cstr_append {text : Bytes} (h : ∀ d ∈ text, d ≠ 0) (rest : Bytes) :
    cstr (text ++ 0 :: rest) = text := by
  rw [cstr_append_of_ne h]
  simp [cstr]

theorem cstr_append_nul {text : Bytes} (h : ∀ d ∈ text, d ≠ 0) : cstr (text ++ [0]) = text :=
  cstr_append h []

theorem byteAt_lt (a : Bytes) (i : ℕ) : byteAt a i < 256 := UInt8.toNat_lt _

theorem byteAt_take {a : Bytes} {i n : ℕ} (h : i < n) : byteAt (a.take n) i = byteAt a i := by
  simp [byteAt, List.getD_eq_getElem?_getD, List.getElem?_take_of_lt h]

theorem byteAt_drop (a : Bytes) (i n : ℕ) : byteAt (a.drop n) i = byteAt a (n + i) := by
  simp [byteAt, List.getD_eq_getElem?_getD, List.getElem?_drop]

theorem beValue_append (a b : Bytes) :
    beValue (a ++ b) = beValue a * 256 ^ b.length + beValue b := by
  induction b using List.reverseRecOn with
  | nil => simp [beValue]
  | append_singleton b x ih =>
    rw [← List.append_assoc]
    simp only [beValue, List.foldl_append, List.foldl_cons, List.foldl_nil, List.length_append,
      List.length_singleton] at ih ⊢
    rw [ih]
    ring_nf

/-- The first byte tells the size of a big-endian number. -/
theorem beValue_eq_byteAt {a : Bytes} {n : ℕ} (h : a.length = n + 1) :
    beValue a = byteAt a 0 * 256 ^ n + beValue a.tail := by
  obtain ⟨x, rest, rfl⟩ := List.exists_cons_of_length_eq_add_one h
  rw [← List.singleton_append, beValue_append, Nat.succ_inj.1 h]
  simp [beValue, byteAt]

@[simp] theorem length_beBytes (n v : ℕ) : (beBytes n v).length = n := by
  induction n generalizing v with
  | zero => rfl
  | succ n ih => simp [beBytes, ih]

theorem beValue_lt (a : Bytes) : beValue a < 256 ^ a.length := by
  induction a using List.reverseRecOn with
  | nil => simp [beValue]
  | append_singleton a x ih =>
    rw [beValue_append, List.length_append, List.length_singleton, pow_one, pow_succ]
    have hx : beValue [x] < 256 := by simpa [beValue] using UInt8.toNat_lt x
    omega

/-- Big-endian bytes read back as the number, up to the width. -/
theorem beValue_beBytes (n v : ℕ) : beValue (beBytes n v) = v % 256 ^ n := by
  induction n generalizing v with
  | zero => simp [beBytes, beValue, Nat.mod_one]
  | succ n ih =>
    rw [beBytes, beValue_append, ih]
    have hx : beValue [UInt8.ofNat v] = v % 256 := by simp [beValue]
    rw [hx, List.length_singleton, pow_one, pow_succ, Nat.mul_comm (256 ^ n) 256,
      Nat.mod_mul, Nat.mul_comm, Nat.add_comm]

/-- A byte string consists of the big-endian bytes of its number. -/
theorem beBytes_beValue (a : Bytes) : beBytes a.length (beValue a) = a := by
  induction a using List.reverseRecOn with
  | nil => rfl
  | append_singleton a x ih =>
    have hvalue : beValue (a ++ [x]) = beValue a * 256 + x.toNat := by
      rw [beValue_append]
      simp [beValue]
    have hx := UInt8.toNat_lt x
    have hdiv : (beValue a * 256 + x.toNat) / 256 = beValue a := by omega
    have hlast : UInt8.ofNat (beValue a * 256 + x.toNat) = x := by
      rw [← UInt8.toNat_inj, UInt8.toNat_ofNat']
      omega
    rw [List.length_append, List.length_singleton, hvalue, beBytes, hdiv, ih, hlast]

end HathorLedger
