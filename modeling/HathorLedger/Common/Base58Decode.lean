import HathorLedger.Common.Base58
import Mathlib.Data.List.GetD

/-!
# The base58 decoder

`base58_decode` turns the digits of base 58 into bytes by dividing the number by 256 in place. A
round of the outer loop takes the quotient of the digits and writes the remainder as the next byte
from the end. The first digit of a quotient is zero, so each round has one digit less to divide.

## Main definitions

* `base58Decode`: from `common/base58.c`.
* `base58Decoded`: the decoding by the mathematical digits of the number.

## Main results

* `base58Decode_eq`: `base58_decode` computes this decoding.
* `base58Decode_inverse`: the decoder and the encoder are inverse to each other.
-/

namespace HathorLedger

def maxDecInputSize : ℕ := 164

/-- `BASE58_TABLE`: the digits of the characters below 128, and `0xFF` for the others. -/
def base58Table : List ℕ :=
  List.replicate 49 0xFF ++ List.range 9 ++ List.replicate 7 0xFF ++ List.range' 9 8 ++ [0xFF] ++
    List.range' 17 5 ++ [0xFF] ++ List.range' 22 11 ++ List.replicate 6 0xFF ++ List.range' 33 11 ++
    [0xFF] ++ List.range' 44 14 ++ List.replicate 5 0xFF

/-- The digit of a character, or `none` where `base58_decode` refuses the character. -/
def base58Digit (c : UInt8) : Option ℕ :=
  if c.toNat ≥ base58Table.length then none
  else if base58Table.getD c.toNat 0 = 0xFF then none
  else some (base58Table.getD c.toNat 0)

/-- The inner loop of `base58_decode`, which divides by 256: the digits of the quotient, and the
remainder. -/
def base58Divide : ℕ → List ℕ → List ℕ × ℕ
  | remainder, [] => ([], remainder)
  | remainder, digit :: digits =>
    let digit256 := digit % 256
    let tmpDiv := (remainder * 58 + digit256) % 65536
    let (quotient, last) := base58Divide (tmpDiv % 256) digits
    (u8 (tmpDiv / 256) :: quotient, last)

/-- The outer loop of `base58_decode`: the last `j` and the bytes in `buffer`. `none` stands for a
loop that has not ended after `n` rounds. -/
def base58DecodeLoop (inLen : ℕ) : ℕ → ℕ → ℕ → List ℕ → List ℕ → Option (ℕ × List ℕ)
  | 0, startAt, j, _, buffer => if startAt < inLen then none else some (j, buffer)
  | n + 1, startAt, j, tmp, buffer =>
    if startAt < inLen then
      let (quotient, remainder) := base58Divide 0 (tmp.drop startAt)
      let tmp := tmp.take startAt ++ quotient
      let startAt := if tmp.getD startAt 0 = 0 then startAt + 1 else startAt
      let j := u8 (j + 255)
      base58DecodeLoop inLen n startAt j tmp (buffer.set j remainder)
    else some (j, buffer)

/-- The conversion of a `size_t` to an `int`. -/
def intOfSize (n : ℕ) : ℤ := (n : ℤ).bmod sizeMod

/-- The end of `base58_decode`, with the bytes from cell `j` of `buffer` on: zero bytes are skipped,
and one for each leading zero digit is put in front. -/
def base58Output (inLen zeroCount j : ℕ) (buffer : List ℕ) (outLen : ℕ) : Option Bytes :=
  let j := j + (((buffer.take inLen).drop j).takeWhile (· == 0)).length
  let length := inLen - (j - zeroCount)
  if intOfSize outLen < length then none
  else some (((buffer.drop (j - zeroCount)).take length).map UInt8.ofNat)

/-- `base58_decode`, or `none` where it returns `-1`. The cells of `tmp` behind the input are left
out, as nothing reads them. -/
def base58Decode (input : Bytes) (outLen : ℕ) : Option Bytes :=
  if input.length > maxDecInputSize ∨ input.length < 2 then none
  else do
    let tmp ← input.mapM base58Digit
    let zeroCount := (tmp.takeWhile (· == 0)).length
    let (j, buffer) ← base58DecodeLoop input.length input.length zeroCount input.length tmp
      (List.replicate maxDecInputSize 0)
    base58Output input.length zeroCount j buffer outLen

/-! ### Division -/

/-- The inner loop divides the number that the remainder and the digits stand for. The digits of the
quotient are digits of base 58 again. -/
theorem base58Divide_spec {remainder : ℕ} {digits : List ℕ} (hremainder : remainder < 256)
    (hdigits : ∀ d ∈ digits, d < 58) {s : List ℕ × ℕ} (h : base58Divide remainder digits = s) :
    s.1.length = digits.length ∧ s.2 < 256 ∧ (∀ d ∈ s.1, d < 58) ∧
      256 * Numeral.value 58 s.1 + s.2 =
        remainder * 58 ^ digits.length + Numeral.value 58 digits := by
  induction digits generalizing remainder s with
  | nil =>
    obtain rfl := h
    simp [base58Divide, hremainder]
  | cons digit digits ih =>
    have hdigit : digit < 58 := hdigits digit (List.mem_cons_self ..)
    have hsum : (remainder * 58 + digit % 256) % 65536 = remainder * 58 + digit := by omega
    have hquotient : (remainder * 58 + digit) / 256 < 58 := by omega
    rw [base58Divide, hsum] at h
    obtain rfl := h
    obtain ⟨hlen, hlast, hlt, hvalue⟩ := ih (s := base58Divide ((remainder * 58 + digit) % 256) digits)
      (Nat.mod_lt _ (by decide)) (fun d hd => hdigits d (List.mem_cons_of_mem _ hd)) rfl
    have hu8 : u8 ((remainder * 58 + digit) / 256) = (remainder * 58 + digit) / 256 :=
      u8_of_lt (by omega)
    refine ⟨by simp [hlen], hlast, ?_, ?_⟩
    · intro d hd
      rcases List.mem_cons.1 hd with rfl | hd
      · rwa [hu8]
      · exact hlt d hd
    · have hdiv := Nat.div_add_mod (remainder * 58 + digit) 256
      rw [hu8, Numeral.value_cons, Numeral.value_cons, hlen, List.length_cons, pow_succ]
      calc _ = 256 * ((remainder * 58 + digit) / 256) * 58 ^ digits.length +
            (256 * Numeral.value 58 (base58Divide ((remainder * 58 + digit) % 256) digits).1 +
              (base58Divide ((remainder * 58 + digit) % 256) digits).2) := by ring
        _ = (256 * ((remainder * 58 + digit) / 256) + (remainder * 58 + digit) % 256) *
            58 ^ digits.length + Numeral.value 58 digits := by rw [hvalue]; ring
        _ = _ := by rw [hdiv]; ring

/-- The outer loop ends after one round for each digit, and leaves as many bytes of the number. -/
theorem base58DecodeLoop_eq {inLen n startAt j m : ℕ} {tmp buffer : List ℕ}
    (htmp : tmp.length = inLen) (hdigits : ∀ d ∈ tmp, d < 58) (hm : inLen = startAt + m)
    (hn : m ≤ n) (hj : m ≤ j) (hlt : j < 256) (hbuffer : j ≤ buffer.length) :
    base58DecodeLoop inLen n startAt j tmp buffer =
      some (j - m, buffer.take (j - m) ++
        Numeral.padded 256 m (Numeral.value 58 (tmp.drop startAt)) ++ buffer.drop j) := by
  induction m generalizing n startAt j tmp buffer with
  | zero =>
    have hend : ¬startAt < inLen := by omega
    cases n <;> simp [base58DecodeLoop, hend, Numeral.padded]
  | succ m ih =>
    obtain ⟨n, rfl⟩ : ∃ k, n = k + 1 := ⟨n - 1, by omega⟩
    obtain ⟨d, rest, hrest⟩ := List.exists_cons_of_length_pos (l := tmp.drop startAt)
      (by rw [List.length_drop]; omega)
    have hmem : ∀ x ∈ d :: rest, x < 58 := fun x hx =>
      hdigits x ((List.drop_sublist startAt tmp).subset (hrest ▸ hx))
    have hd : d < 58 := hmem d (List.mem_cons_self ..)
    obtain ⟨hlen, hlast, hquotient, hvalue⟩ := base58Divide_spec (show 0 < 256 by decide) hmem rfl
    -- the first digit of the quotient is zero
    have hfirst : ∃ q, (base58Divide 0 (d :: rest)).1 = 0 :: q := by
      refine ⟨_, congrArg (· :: _) ?_⟩
      have hsum : (0 * 58 + d % 256) % 65536 = d := by omega
      rw [hsum, Nat.div_eq_of_lt (by omega)]
      rfl
    obtain ⟨q, hq⟩ := hfirst
    set r := (base58Divide 0 (d :: rest)).2 with hr
    have hdivide : base58Divide 0 (tmp.drop startAt) = (0 :: q, r) := by
      rw [hrest, hr, ← hq]
    rw [hq] at hlen hquotient hvalue
    have hq_len : q.length = m := by
      have : (tmp.drop startAt).length = m + 1 := by rw [List.length_drop]; omega
      rw [hrest] at this
      simp only [List.length_cons] at hlen this
      omega
    have htake : (tmp.take startAt).length = startAt := by rw [List.length_take]; omega
    have hcell : (tmp.take startAt ++ 0 :: q).getD startAt 0 = 0 := by
      rw [List.getD_append_right _ _ _ _ htake.le, htake, Nat.sub_self]
      rfl
    have hdrop : (tmp.take startAt ++ 0 :: q).drop (startAt + 1) = q := by
      rw [List.drop_append, htake, List.drop_eq_nil_of_le (by omega)]
      simp
    have hj' : u8 (j + 255) = j - 1 := by
      unfold u8
      omega
    rw [base58DecodeLoop, if_pos (by omega), hdivide]
    simp only [hcell, if_true, hj']
    have hih := @ih n (startAt + 1) (j - 1) (tmp.take startAt ++ 0 :: q) (buffer.set (j - 1) r)
      (by rw [List.length_append, htake, List.length_cons, hq_len]; omega)
      (by
        intro x hx
        rcases List.mem_append.1 hx with hx | hx
        · exact hdigits x ((List.take_sublist startAt tmp).subset hx)
        · exact hquotient x hx)
      (by omega) (by omega) (by omega) (by omega) (by rw [List.length_set]; omega)
    rw [hih, hdrop]
    have htotal : Numeral.value 58 (tmp.drop startAt) = 256 * Numeral.value 58 q + r := by
      rw [hrest, ← Nat.zero_add (Numeral.value 58 (d :: rest)), ← Nat.zero_mul, ← hvalue,
        Numeral.value_cons, Nat.zero_mul, Nat.zero_add]
    have hset : buffer.set (j - 1) r = buffer.take (j - 1) ++ r :: buffer.drop j := by
      rw [List.set_eq_take_append_cons_drop, if_pos (by omega), Nat.sub_add_cancel (by omega)]
    have hfront : (buffer.take (j - 1)).length = j - 1 := by rw [List.length_take]; omega
    have hkept : (buffer.set (j - 1) r).take (j - 1 - m) = buffer.take (j - (m + 1)) := by
      rw [hset, List.take_append_of_le_length (by omega), List.take_take, min_eq_left (by omega),
        Nat.sub_sub, Nat.add_comm]
    have hback : (buffer.set (j - 1) r).drop (j - 1) = r :: buffer.drop j := by
      rw [hset, List.drop_left' hfront]
    have hdiv : (256 * Numeral.value 58 q + r) / 256 = Numeral.value 58 q := by omega
    have hmod : (256 * Numeral.value 58 q + r) % 256 = r := by omega
    rw [hkept, hback, htotal, Numeral.padded, hdiv, hmod, Nat.sub_sub, Nat.add_comm 1 m]
    simp only [List.append_assoc, List.singleton_append]

/-! ### The decoder -/

/-- One zero byte for each leading zero digit, and the bytes of the number. -/
def base58Decoded (digits : List ℕ) : Bytes :=
  List.replicate (digits.takeWhile (· == 0)).length 0 ++
    (Numeral.digits 256 (Numeral.value 58 digits)).map UInt8.ofNat

theorem base58Digit_eq_some {c : UInt8} {d : ℕ} (h : base58Digit c = some d) :
    d < 58 ∧ base58Char d = c := by
  revert d
  have hall : ∀ n < 256, ∀ d, base58Digit (UInt8.ofNat n) = some d →
      d < 58 ∧ base58Char d = UInt8.ofNat n := by decide +kernel
  simpa using hall c.toNat (UInt8.toNat_lt c)

theorem base58Digit_base58Char {d : ℕ} (h : d < 58) : base58Digit (base58Char d) = some d := by
  revert d
  decide +kernel

/-- The characters of digits are the strings that the decoder can translate. -/
theorem mapM_base58Digit_iff {input : Bytes} {digits : List ℕ} :
    input.mapM base58Digit = some digits ↔
      (∀ d ∈ digits, d < 58) ∧ digits.map base58Char = input := by
  induction input generalizing digits with
  | nil => cases digits <;> simp
  | cons c input ih =>
    rw [List.mapM_cons]
    constructor
    · intro h
      obtain ⟨d, hd, h⟩ := Option.bind_eq_some_iff.1 h
      obtain ⟨rest, hrest, h⟩ := Option.bind_eq_some_iff.1 h
      obtain rfl : d :: rest = digits := Option.some.inj h
      obtain ⟨hlt, hchar⟩ := base58Digit_eq_some hd
      obtain ⟨hltRest, hmap⟩ := ih.1 hrest
      exact ⟨List.forall_mem_cons.2 ⟨hlt, hltRest⟩, by rw [List.map_cons, hchar, hmap]⟩
    · rintro ⟨hlt, hmap⟩
      obtain ⟨d, rest, rfl⟩ := List.exists_cons_of_ne_nil (l := digits) (by rintro rfl; cases hmap)
      rw [List.forall_mem_cons] at hlt
      rw [List.map_cons, List.cons.injEq] at hmap
      obtain ⟨rfl, hmap⟩ := hmap
      rw [base58Digit_base58Char hlt.1, ih.2 ⟨hlt.2, hmap⟩]
      rfl

/-- `base58_decode` computes the decoding of the digits, where the output has room for it. -/
theorem base58Decode_eq {digits : List ℕ} (hmin : 2 ≤ digits.length)
    (hmax : digits.length ≤ maxDecInputSize) (hdigits : ∀ d ∈ digits, d < 58) (outLen : ℕ) :
    base58Decode (digits.map base58Char) outLen =
      if intOfSize outLen < (base58Decoded digits).length then none
      else some (base58Decoded digits) := by
  set z := (digits.takeWhile (· == 0)).length with hz
  have hzle : z ≤ digits.length := (List.takeWhile_prefix _).length_le
  obtain ⟨m, hm⟩ : ∃ m, digits.length = z + m := ⟨digits.length - z, by omega⟩
  set number := Numeral.value 58 digits with hnumber
  have hsplit : List.replicate z 0 ++ digits.drop z = digits := by
    rw [hz, List.drop_length_takeWhile, List.replicate_append_dropWhile]
  have hvalue : Numeral.value 58 (digits.drop z) = number := by
    rw [hnumber, ← hsplit, Numeral.value_append_of_zeros fun d hd => List.eq_of_mem_replicate hd]
    rw [hsplit]
  -- the bytes that the loop leaves behind the leading zeros
  set bytes := Numeral.padded 256 m number with hbytes
  set t := (bytes.takeWhile (· == 0)).length with ht
  have hfits : number < 256 ^ m := by
    rw [← hvalue]
    refine (Numeral.value_lt (by decide) fun d hd =>
      hdigits d ((List.drop_sublist z digits).subset hd)).trans_le ?_
    rw [List.length_drop, hm, Nat.add_sub_cancel_left]
    exact Nat.pow_le_pow_left (by decide) m
  have hbytes' : bytes = List.replicate t 0 ++ Numeral.digits 256 number := by
    rw [← Numeral.dropWhile_padded (by decide) hfits, ht, List.replicate_append_dropWhile]
  have hlength : t + (Numeral.digits 256 number).length = m := by
    have := congrArg List.length hbytes'
    simpa [hbytes] using this.symm
  have hloop := @base58DecodeLoop_eq digits.length digits.length z digits.length m digits
    (List.replicate maxDecInputSize 0) rfl hdigits hm (by omega) (by omega)
    (hmax.trans_lt (by norm_num [maxDecInputSize])) (by rwa [List.length_replicate])
  set cells := List.replicate z 0 ++ bytes ++ List.replicate (maxDecInputSize - digits.length) 0
    with hcells'
  have hloop' : base58DecodeLoop digits.length digits.length z digits.length digits
      (List.replicate maxDecInputSize 0) = some (z, cells) := by
    rw [hloop, hvalue, hm, Nat.add_sub_cancel, List.take_replicate, List.drop_replicate,
      min_eq_left (by omega), hcells', hm]
  have htake : cells.take digits.length = List.replicate z 0 ++ bytes :=
    List.take_left' (by simp [hbytes, hm])
  have hlengthDecoded : (base58Decoded digits).length = digits.length - t := by
    rw [base58Decoded, List.length_append, List.length_replicate, List.length_map, ← hz, ← hnumber]
    omega
  have hfront : List.replicate z 0 ++ bytes =
      List.replicate t 0 ++ (List.replicate z 0 ++ Numeral.digits 256 number) := by
    rw [hbytes', ← List.append_assoc, ← List.append_assoc, List.replicate_append_replicate,
      List.replicate_append_replicate, Nat.add_comm]
  have houtput : base58Output digits.length z z cells outLen =
      if intOfSize outLen < (base58Decoded digits).length then none
      else some (base58Decoded digits) := by
    have hwritten : (cells.drop t).take (digits.length - t) =
        List.replicate z 0 ++ Numeral.digits 256 number := by
      rw [← List.drop_take, htake, hfront, List.drop_left' (List.length_replicate ..)]
    rw [base58Output, htake, List.drop_left' (List.length_replicate ..), ← ht,
      Nat.add_sub_cancel_left, hlengthDecoded, hwritten, List.map_append, List.map_replicate]
    rfl
  rw [base58Decode, List.length_map, if_neg (by omega),
    mapM_base58Digit_iff.2 ⟨hdigits, rfl⟩, ← houtput]
  rw [Option.bind_eq_bind, Option.bind_some, Option.bind_eq_bind, ← hz]
  dsimp only
  rw [hloop', Option.bind_some]

/-! ### Round trips -/

/-- The digits of an input: one zero for each leading zero byte, and the digits of what follows. -/
def base58InputDigits (input : Bytes) : List ℕ :=
  List.replicate (input.takeWhile (· == 0)).length 0 ++
    Numeral.digits 58 (beValue (input.dropWhile (· == 0)))

theorem base58Reference_eq_map (input : Bytes) :
    base58Reference input = (base58InputDigits input).map base58Char := by
  rw [base58InputDigits, List.map_append, List.map_replicate]
  rfl

theorem lt_of_mem_base58InputDigits {input : Bytes} :
    ∀ d ∈ base58InputDigits input, d < 58 := by
  intro d hd
  rcases List.mem_append.1 hd with hd | hd
  · rw [List.eq_of_mem_replicate hd]
    decide
  · exact Numeral.lt_of_mem_digits (by decide) hd

theorem map_ofNat_toNat (a : Bytes) : (a.map UInt8.toNat).map UInt8.ofNat = a := by
  simp [Function.comp_def]

theorem map_toNat_ofNat {l : List ℕ} (h : ∀ d ∈ l, d < 256) :
    (l.map UInt8.ofNat).map UInt8.toNat = l := by
  rw [List.map_map]
  refine (List.map_congr_left fun d hd => ?_).trans (List.map_id l)
  simp [Nat.mod_eq_of_lt (h d hd)]

/-- The bytes of a number that do not start with a zero are its digits in base 256. -/
theorem digits_beValue {a : Bytes} (h : a.head? ≠ some 0) :
    (Numeral.digits 256 (beValue a)).map UInt8.ofNat = a := by
  rw [beValue_eq_value, Numeral.digits_value_of_head (by decide), map_ofNat_toNat]
  · intro d hd
    obtain ⟨b, -, rfl⟩ := List.mem_map.1 hd
    exact UInt8.toNat_lt b
  · cases a with
    | nil => simp
    | cons b a =>
      have hne : b ≠ 0 := by simpa using h
      simpa [← UInt8.toNat_inj] using hne

theorem beValue_digits (n : ℕ) : beValue ((Numeral.digits 256 n).map UInt8.ofNat) = n := by
  rw [beValue_eq_value, map_toNat_ofNat fun d hd => Numeral.lt_of_mem_digits (by decide) hd,
    Numeral.value_digits]

/-- The decoding of the digits of an input is the input. -/
theorem base58Decoded_inputDigits (input : Bytes) :
    base58Decoded (base58InputDigits input) = input := by
  have hzeros : (base58InputDigits input).takeWhile (· == 0) =
      List.replicate (input.takeWhile (· == 0)).length 0 :=
    List.takeWhile_replicate_append _ (Numeral.head_digits_ne_zero (by decide))
  have hvalue : Numeral.value 58 (base58InputDigits input) =
      beValue (input.dropWhile (· == 0)) := by
    rw [base58InputDigits, Numeral.value_append_of_zeros fun d hd => List.eq_of_mem_replicate hd,
      Numeral.value_digits]
  rw [base58Decoded, hzeros, hvalue, digits_beValue (List.head_dropWhile_ne input 0),
    List.length_replicate, List.replicate_append_dropWhile]

/-- The digits of a decoding are the digits that were decoded. -/
theorem base58InputDigits_decoded {digits : List ℕ} (hdigits : ∀ d ∈ digits, d < 58) :
    base58InputDigits (base58Decoded digits) = digits := by
  have hhead : ((Numeral.digits 256 (Numeral.value 58 digits)).map UInt8.ofNat).head? ≠ some 0 := by
    rw [List.head?_map]
    intro h
    obtain ⟨d, hd, hzero⟩ := Option.map_eq_some_iff.1 h
    have hlt := Numeral.lt_of_mem_digits (by decide) (List.mem_of_mem_head? hd)
    have hd0 : d = 0 := by
      have := congrArg UInt8.toNat hzero
      rwa [UInt8.toNat_ofNat_of_lt' hlt] at this
    exact Numeral.head_digits_ne_zero (by decide) (hd0 ▸ hd)
  have hvalue := beValue_digits (Numeral.value 58 digits)
  rw [base58InputDigits, base58Decoded, List.takeWhile_replicate_append _ hhead,
    List.dropWhile_replicate_append _ hhead, hvalue, Numeral.digits_value (by decide) hdigits,
    List.length_replicate, List.replicate_append_dropWhile]

/-- An input of 120 bytes is encoded in at most 164 characters. -/
theorem length_base58Reference_le {input : Bytes} (h : input.length ≤ maxEncInputSize) :
    (base58Reference input).length ≤ maxDecInputSize := by
  set z := (input.takeWhile (· == 0)).length with hz
  set n := (input.dropWhile (· == 0)).length with hn
  have hlen : n = input.length - z := length_dropWhile_eq input
  have hzle : z ≤ input.length := (List.takeWhile_prefix _).length_le
  rw [maxEncInputSize] at h
  have hdigits : (Numeral.digits 58 (beValue (input.dropWhile (· == 0)))).length ≤ 164 - z := by
    rw [Numeral.length_digits_le_iff (by decide)]
    refine (beValue_lt _).trans_le ?_
    rw [← hn]
    refine Nat.le_of_mul_le_mul_right ?_ (Nat.pow_pos (n := z) (show 0 < 58 by decide))
    calc 256 ^ n * 58 ^ z ≤ 256 ^ n * 256 ^ z :=
          Nat.mul_le_mul_left _ (Nat.pow_le_pow_left (by decide) z)
      _ = 256 ^ (n + z) := (pow_add 256 n z).symm
      _ ≤ 256 ^ 120 := Nat.pow_le_pow_right (by decide) (by omega)
      _ ≤ 58 ^ 164 := by norm_num
      _ = 58 ^ (164 - z) * 58 ^ z := by rw [← pow_add, Nat.sub_add_cancel (by omega)]
  rw [base58Reference, List.length_append, List.length_replicate, List.length_map,
    maxDecInputSize]
  omega

theorem mem_base58Alphabet_iff {c : UInt8} : c ∈ base58Alphabet ↔ ∃ d < 58, base58Char d = c := by
  constructor
  · intro h
    obtain ⟨d, hd, rfl⟩ := List.getElem_of_mem h
    refine ⟨d, hd, ?_⟩
    rw [base58Char, List.getD_eq_getElem?_getD, List.getElem?_eq_getElem hd, Option.getD_some]
  · rintro ⟨d, hd, rfl⟩
    revert d
    decide +kernel

/-- A string over the alphabet spells digits. -/
theorem exists_digits {s : Bytes} (h : ∀ c ∈ s, c ∈ base58Alphabet) :
    ∃ digits : List ℕ, (∀ d ∈ digits, d < 58) ∧ digits.map base58Char = s := by
  induction s with
  | nil => exact ⟨[], by simp, rfl⟩
  | cons c s ih =>
    rw [List.forall_mem_cons] at h
    obtain ⟨d, hd, rfl⟩ := mem_base58Alphabet_iff.1 h.1
    obtain ⟨digits, hdigits, rfl⟩ := ih h.2
    exact ⟨d :: digits, List.forall_mem_cons.2 ⟨hd, hdigits⟩, rfl⟩

/-- The decoder returns the bytes for the string exactly if the output has room for them. -/
def DecodesTo (s bytes : Bytes) : Prop :=
  ∀ outLen, base58Decode s outLen = if intOfSize outLen < bytes.length then none else some bytes

/-- Decoding and encoding are inverse, and only strings over the alphabet are decoded. -/
theorem base58Decode_inverse :
    (∀ (input encoded : Bytes) (encLen : ℕ), input.length ≤ maxEncInputSize →
      base58Encode input encLen = some encoded → 2 ≤ encoded.length → DecodesTo encoded input) ∧
    (∀ s : Bytes, 2 ≤ s.length → s.length ≤ maxDecInputSize → (∀ c ∈ s, c ∈ base58Alphabet) →
      ∃ bytes, DecodesTo s bytes ∧ (bytes.length ≤ maxEncInputSize →
        ∀ encLen, s.length ≤ encLen → base58Encode bytes encLen = some s)) ∧
    ∀ (s : Bytes) (c : UInt8) (outLen : ℕ), c ∈ s → c ∉ base58Alphabet →
      base58Decode s outLen = none := by
  refine ⟨?_, ?_, ?_⟩
  · intro input encoded encLen hinput hencode hmin
    rw [base58Encode_eq hinput] at hencode
    split_ifs at hencode with hroom
    obtain rfl := Option.some.inj hencode
    have hmax := length_base58Reference_le hinput
    rw [base58Reference_eq_map] at hmin hmax ⊢
    rw [List.length_map] at hmin hmax
    intro outLen
    rw [base58Decode_eq hmin hmax lt_of_mem_base58InputDigits, base58Decoded_inputDigits]
  · intro s hmin hmax hs
    obtain ⟨digits, hdigits, rfl⟩ := exists_digits hs
    rw [List.length_map] at hmin hmax
    refine ⟨base58Decoded digits, base58Decode_eq hmin hmax hdigits, fun hlen encLen hroom => ?_⟩
    have hreference : base58Reference (base58Decoded digits) = digits.map base58Char := by
      rw [base58Reference_eq_map, base58InputDigits_decoded hdigits]
    rw [base58Encode_eq hlen, hreference, if_neg (not_lt.2 hroom)]
  · intro s c outLen hc hnot
    have hmap : s.mapM base58Digit = none := by
      rw [Option.eq_none_iff_forall_ne_some]
      intro digits h
      obtain ⟨hdigits, rfl⟩ := mapM_base58Digit_iff.1 h
      obtain ⟨d, hd, rfl⟩ := List.mem_map.1 hc
      exact hnot (mem_base58Alphabet_iff.2 ⟨d, hdigits d hd, rfl⟩)
    rw [base58Decode, hmap]
    split_ifs <;> rfl

theorem base58Decode_inverse_sample : DecodesTo (base58Reference [0, 255, 7]) [0, 255, 7] :=
  base58Decode_inverse.1 [0, 255, 7] _ 4 (by decide) (by decide +kernel) (by decide +kernel)

end HathorLedger
