import HathorLedger.Common.Format
import HathorLedger.Library.Numeral

/-!
# The base58 encoder

`base58_encode` turns a byte string into digits of base 58 by adding one byte after the other to a
big number. The pass over the digits for one byte ends as soon as nothing is left to carry and the
digits in front of the position are known to be zero.

## Main definitions

* `base58Reference`: the encoding by the mathematical digits of the number.
* `base58State`: the digits and the value of `stop_at` after some bytes of the input.

## Main results

* `base58Encode_eq`: `base58_encode` computes the reference encoding.
-/

namespace HathorLedger

/-- The value of a byte string is that of its bytes as digits. -/
theorem beValue_eq_value (a : Bytes) : beValue a = Numeral.value 256 (a.map UInt8.toNat) := by
  rw [beValue, Numeral.value, List.foldl_map]

/-- The character of a digit. -/
def base58Char (d : ℕ) : UInt8 := base58Alphabet.getD d 0

/-- One `1` for each leading zero byte, and the digits of what follows, without leading zeros. -/
def base58Reference (input : Bytes) : Bytes :=
  List.replicate (input.takeWhile (· == 0)).length 49 ++
    (Numeral.digits 58 (beValue (input.dropWhile (· == 0)))).map base58Char

/-! ### One pass over the digits -/

/-- What a pass over the digits `k - 1, ..., 0` makes of `buffer`: the number in front of the digits
is multiplied by 256 and the carry is added. The pass ends at a position `j` with only zeros in
front of it, which is at least `low`. -/
structure Base58Carried (k carry low : ℕ) (buffer : List ℕ) (s : List ℕ × ℕ) : Prop where
  length_eq : s.1.length = buffer.length
  digit_lt : ∀ d ∈ s.1, d < 58
  value_eq : Numeral.value 58 (s.1.take k) = 256 * Numeral.value 58 (buffer.take k) + carry
  drop_eq : s.1.drop k = buffer.drop k
  zeros : ∀ i < s.2, s.1.getD i 0 = 0
  le_stop : low ≤ s.2
  stop_lt : s.2 < k

/-- Digits that are all zero have no value. -/
theorem value_take_of_zeros {buffer : List ℕ} {j : ℕ} (h : ∀ i < j, buffer.getD i 0 = 0) :
    Numeral.value 58 (buffer.take j) = 0 := by
  refine Numeral.value_eq_zero fun d hd => ?_
  obtain ⟨i, hi, rfl⟩ := List.getElem_of_mem hd
  rw [List.length_take] at hi
  have := h i (by omega)
  rw [List.getD_eq_getElem?_getD, List.getElem?_eq_getElem (by omega), Option.getD_some] at this
  rw [List.getElem_take, this]

theorem getD_set_of_ne {buffer : List ℕ} {i j d : ℕ} (h : i ≠ j) :
    (buffer.set j d).getD i 0 = buffer.getD i 0 := by
  rw [List.getD_eq_getElem?_getD, List.getElem?_set_ne (Ne.symm h), List.getD_eq_getElem?_getD]

/-- The early exit drops no carry: the pass ends by it, and not before the digits that the number
needs are written. -/
theorem base58Carry_spec {stopAt k carry low : ℕ} {buffer : List ℕ} (hk : k ≤ buffer.length)
    (hdigits : ∀ d ∈ buffer, d < 58)
    (hzeros : ∀ i < k, i < stopAt → buffer.getD i 0 = 0) (hlow : low < k) (hlow' : low < stopAt)
    (hfits : 256 * Numeral.value 58 (buffer.take k) + carry < 58 ^ (k - low)) :
    Base58Carried k carry low buffer (base58Carry stopAt k carry buffer) := by
  induction k generalizing carry buffer with
  | zero => exact absurd hlow (Nat.not_lt_zero _)
  | succ j ih =>
    have hsub : sizeSub stopAt 1 = stopAt - 1 := sizeSub_of_le (by omega)
    have htake := Numeral.value_take_succ (b := 58) (k := j) (l := buffer) (by omega)
    rw [base58Carry, hsub]
    set sum := carry + 256 * buffer.getD j 0 with hsum
    set buffer' := buffer.set j (sum % 58) with hbuffer'
    have hlen : buffer'.length = buffer.length := by simp [hbuffer']
    have hdigits' : ∀ d ∈ buffer', d < 58 := by
      intro d hd
      rcases List.mem_or_eq_of_mem_set hd with hd | rfl
      · exact hdigits d hd
      · exact Nat.mod_lt _ (by decide)
    have htake' : buffer'.take j = buffer.take j := List.take_set_of_le (Nat.le_refl j)
    have hdrop' : buffer'.drop (j + 1) = buffer.drop (j + 1) := List.drop_set_of_lt (by omega)
    have hcell : buffer'.getD j 0 = sum % 58 := by
      rw [List.getD_eq_getElem?_getD, List.getElem?_set_self (by omega), Option.getD_some]
    have hother : ∀ i, i ≠ j → buffer'.getD i 0 = buffer.getD i 0 := fun i hi => getD_set_of_ne hi
    by_cases hexit : j ≤ stopAt - 1 ∧ sum / 58 = 0
    · rw [if_pos hexit]
      have hzeros' : ∀ i < j, buffer.getD i 0 = 0 :=
        fun i hi => hzeros i (by omega) (by omega)
      have hzero := value_take_of_zeros hzeros'
      have hvalue : Numeral.value 58 (buffer'.take (j + 1)) =
          256 * Numeral.value 58 (buffer.take (j + 1)) + carry := by
        rw [Numeral.value_take_succ (by omega), htake', hcell, htake, hzero]
        omega
      refine ⟨hlen, hdigits', hvalue, hdrop', fun i hi => ?_, by omega, Nat.lt_succ_self j⟩
      exact (hother i (Nat.ne_of_lt hi)).trans (hzeros' i hi)
    · rw [if_neg hexit]
      have hpow : 58 ^ (j + 1 - low) = 58 * 58 ^ (j - low) := by
        rw [Nat.sub_add_comm (by omega), pow_succ, Nat.mul_comm]
      have hlow₁ : low < j := by
        by_contra hge
        obtain rfl : low = j := by omega
        have hzero := value_take_of_zeros (j := low) fun i hi => hzeros i (by omega) (by omega)
        rw [Nat.sub_self, pow_zero] at hpow
        exact hexit ⟨by omega, by omega⟩
      have hih := @ih (sum / 58) buffer' (by omega) hdigits'
        (fun i hi hlt => by rw [hother i (by omega), hzeros i (by omega) hlt]) hlow₁ (by rw [htake']; omega)
      obtain ⟨hlen₁, hdigits₁, hvalue₁, hdrop₁, hzeros₁, hle₁, hlt₁⟩ := hih
      set s := base58Carry stopAt j (sum / 58) buffer' with hs
      have hcell₁ : s.1.getD j 0 = sum % 58 := by
        rw [← hcell]
        have := congrArg (fun l => l.getD 0 0) hdrop₁
        simpa [List.getD_eq_getElem?_getD, List.getElem?_drop] using this
      refine ⟨by omega, hdigits₁, ?_, ?_, hzeros₁, hle₁, by omega⟩
      · rw [Numeral.value_take_succ (by omega), hvalue₁, hcell₁, htake', htake]
        omega
      · rw [← hdrop', ← List.drop_drop, hdrop₁, List.drop_drop]

/-! ### The growth of the number -/

/-- The number of digits that the work buffer has for `n` bytes. -/
def base58Size (n : ℕ) : ℕ := n * 138 / 100 + 1

/-- The digits of the work buffer are enough for every number of `n` bytes. -/
theorem pow_le_pow_base58Size (n : ℕ) : 256 ^ n ≤ 58 ^ base58Size n := by
  have hgrowth : 256 ^ 100 ≤ 58 ^ 138 := by norm_num
  have hdigits : 138 * n ≤ base58Size n * 100 := by
    unfold base58Size
    omega
  refine (Nat.pow_le_pow_iff_left (n := 100) (by decide)).1 ?_
  calc (256 ^ n) ^ 100 = (256 ^ 100) ^ n := by rw [← pow_mul, ← pow_mul, Nat.mul_comm]
    _ ≤ (58 ^ 138) ^ n := Nat.pow_le_pow_left hgrowth n
    _ = 58 ^ (138 * n) := (pow_mul 58 138 n).symm
    _ ≤ 58 ^ (base58Size n * 100) := Nat.pow_le_pow_right (by decide) hdigits
    _ = (58 ^ base58Size n) ^ 100 := pow_mul 58 (base58Size n) 100

/-- The digits and `stop_at` after the bytes `input`. -/
def base58State (outputSize : ℕ) (input : Bytes) : List ℕ × ℕ :=
  input.foldl (fun s b => base58Carry s.2 outputSize b.toNat s.1)
    (List.replicate outputSize 0, outputSize - 1)

/-- After the bytes `done`, the digits are those of their number, and the leading digits up to
`stop_at` are zero. -/
structure Base58Progress (outputSize : ℕ) (done : Bytes) (s : List ℕ × ℕ) : Prop where
  length_eq : s.1.length = outputSize
  digit_lt : ∀ d ∈ s.1, d < 58
  value_eq : Numeral.value 58 s.1 = beValue done
  zeros : ∀ i < s.2, s.1.getD i 0 = 0
  le_stop : outputSize - base58Size done.length ≤ s.2
  stop_lt : s.2 < outputSize

/-- Each byte takes at least one more digit of the work buffer. -/
theorem base58Size_lt_succ (n : ℕ) : base58Size n < base58Size (n + 1) := by
  unfold base58Size
  omega

/-- One byte keeps the invariant, where the work buffer has room for it. -/
theorem Base58Progress.next {outputSize : ℕ} {done : Bytes} {s : List ℕ × ℕ}
    (h : Base58Progress outputSize done s) (hsize : base58Size (done.length + 1) ≤ outputSize)
    (b : UInt8) :
    Base58Progress outputSize (done ++ [b]) (base58Carry s.2 outputSize b.toNat s.1) := by
  have hlt := base58Size_lt_succ done.length
  have hstop := h.le_stop
  have htake : s.1.take outputSize = s.1 := List.take_of_length_le h.length_eq.le
  have hvalue : 256 * Numeral.value 58 (s.1.take outputSize) + b.toNat = beValue (done ++ [b]) := by
    rw [htake, h.value_eq, beValue_append]
    simp [beValue, Nat.mul_comm]
  have hfits : beValue (done ++ [b]) < 58 ^ base58Size (done.length + 1) := by
    refine (beValue_lt _).trans_le ?_
    rw [List.length_append, List.length_singleton]
    exact pow_le_pow_base58Size _
  have hcarried := @base58Carry_spec s.2 outputSize b.toNat
    (outputSize - base58Size (done.length + 1)) s.1 h.length_eq.ge h.digit_lt
    (fun i _ hi => h.zeros i hi) (by omega) (by omega)
    (by rw [hvalue, Nat.sub_sub_self hsize]; exact hfits)
  have hlen := hcarried.length_eq.trans h.length_eq
  refine ⟨hlen, hcarried.digit_lt, ?_, hcarried.zeros, ?_, hcarried.stop_lt⟩
  · rw [← hvalue, ← hcarried.value_eq, List.take_of_length_le hlen.le]
  · rw [List.length_append, List.length_singleton]
    exact hcarried.le_stop

/-- The invariant holds after any number of bytes that the work buffer has room for. -/
theorem base58Progress_of_le {outputSize : ℕ} {done : Bytes}
    (hsize : base58Size done.length ≤ outputSize) :
    Base58Progress outputSize done (base58State outputSize done) := by
  induction done using List.reverseRecOn with
  | nil =>
    have hpos : 0 < outputSize := hsize
    refine ⟨by simp [base58State], ?_, ?_, ?_, le_rfl, Nat.sub_lt hpos Nat.one_pos⟩
    · intro d hd
      rw [List.eq_of_mem_replicate hd]
      decide
    · exact Numeral.value_eq_zero fun d hd => List.eq_of_mem_replicate hd
    · intro i _
      simp [base58State, List.getD_eq_getElem?_getD, List.getElem?_replicate]
      split_ifs <;> rfl
  | append_singleton done b ih =>
    rw [List.length_append, List.length_singleton] at hsize
    have hlt := base58Size_lt_succ done.length
    have hnext := (ih (by omega)).next hsize b
    rwa [base58State, List.foldl_append, List.foldl_cons, List.foldl_nil]

/-- The loop of the encoder goes through the states. -/
theorem base58Digits_eq (outputSize : ℕ) (input : Bytes) :
    base58Digits outputSize input (outputSize - 1) (List.replicate outputSize 0) =
      (base58State outputSize input).1 := by
  unfold base58State
  generalize outputSize - 1 = stopAt
  generalize List.replicate outputSize 0 = buffer
  induction input generalizing stopAt buffer with
  | nil => rfl
  | cons b input ih =>
    rw [base58Digits, List.foldl_cons]
    exact ih _ _

/-! ### The encoder -/

theorem length_dropWhile_eq (input : Bytes) :
    (input.dropWhile (· == 0)).length = input.length - (input.takeWhile (· == 0)).length := by
  rw [← List.drop_length_takeWhile, List.length_drop]

/-- The digits that the encoder leaves are those of the number of the remaining bytes. -/
theorem dropWhile_base58Digits (input : Bytes) :
    (base58Digits (base58Size input.length) input (base58Size input.length - 1)
      (List.replicate (base58Size input.length) 0)).dropWhile (· == 0) =
        Numeral.digits 58 (beValue input) := by
  have hprogress := base58Progress_of_le (le_refl (base58Size input.length))
  rw [base58Digits_eq, ← Numeral.digits_value (by decide) hprogress.digit_lt, hprogress.value_eq]

/-- `base58_encode` computes the reference encoding, where the output has room for it. -/
theorem base58Encode_eq {input : Bytes} (hinput : input.length ≤ maxEncInputSize) (outLen : ℕ) :
    base58Encode input outLen =
      if outLen < (base58Reference input).length then none else some (base58Reference input) := by
  have hsize : (input.length - (input.takeWhile (· == 0)).length) * 138 / 100 + 1 =
      base58Size (input.dropWhile (· == 0)).length := by
    rw [length_dropWhile_eq, base58Size]
  rw [base58Encode, if_neg (not_lt.2 hinput)]
  dsimp only
  rw [hsize, List.drop_length_takeWhile, dropWhile_base58Digits, base58Reference, List.length_append,
    List.length_replicate, List.length_map]
  rfl

/-- The encoder refuses an input exactly if the output has no room for the reference encoding, and
writes this encoding otherwise. In front of each of the bytes that it adds, `stop_at` is positive;
the pass for the byte ends by its early exit and leaves the digits of the number with the byte. -/
structure EncodesReference (input : Bytes) : Prop where
  refused_iff : ∀ outLen, base58Encode input outLen = none ↔
    outLen < (base58Reference input).length
  encoded : ∀ outLen, (base58Reference input).length ≤ outLen →
    base58Encode input outLen = some (base58Reference input)
  passed : ∀ (done rest : Bytes) (b : UInt8) (s s' : List ℕ × ℕ),
    input.dropWhile (· == 0) = done ++ b :: rest →
    base58State (base58Size (done ++ b :: rest).length) done = s →
    base58Carry s.2 (base58Size (done ++ b :: rest).length) b.toNat s.1 = s' →
    0 < s.2 ∧ s'.2 < base58Size (done ++ b :: rest).length ∧
      Numeral.value 58 s.1 = beValue done ∧
      Numeral.value 58 s'.1 = 256 * Numeral.value 58 s.1 + b.toNat

/-- The base58 encoder is correct on all inputs that it takes. -/
theorem encodesReference (input : Bytes) (hinput : input.length ≤ maxEncInputSize) :
    EncodesReference input := by
  refine ⟨fun outLen => ?_, fun outLen hlen => ?_, ?_⟩
  · rw [base58Encode_eq hinput]
    split_ifs with hlen
    · exact iff_of_true rfl hlen
    · exact iff_of_false (by simp) hlen
  · rw [base58Encode_eq hinput, if_neg (not_lt.2 hlen)]
  · rintro done rest b s s' - rfl rfl
    have hmono : base58Size (done.length + 1) ≤ base58Size (done ++ b :: rest).length := by
      rw [List.length_append, List.length_cons]
      unfold base58Size
      omega
    have hlt := base58Size_lt_succ done.length
    have hprogress := base58Progress_of_le (hlt.le.trans hmono)
    have hnext := hprogress.next hmono b
    have hstop := hprogress.le_stop
    refine ⟨by omega, hnext.stop_lt, hprogress.value_eq, ?_⟩
    rw [hnext.value_eq, hprogress.value_eq, beValue_append]
    simp [beValue, Nat.mul_comm]

theorem encodesReference_sample : EncodesReference [0, 255, 7] :=
  encodesReference [0, 255, 7] (by decide)

end HathorLedger
