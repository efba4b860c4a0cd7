import HathorLedger.Common.Format
import HathorLedger.Library.Numeral

/-!
# Numbers in any base

`itoa` divides the number by the base until nothing is left and reads the digits, the last one
first, from a table that is mirrored at the digit `0`, so that a negative remainder finds its digit
as well.

For a base that is not between 2 and 36 it sets the first cell to NUL, as if the text were to be
empty, but there is no return, and the conversion goes on with the base. The text ends up empty only
if the digit written last, which becomes the first one, is read from the NUL behind the table.

## Main definitions

* `numeralDigits`, `baseChar`: the digits of a number in a base, and their characters.
* `Represents`: a text represents a number in a base.
* `ItoaExact`: `itoa` represents the number in a valid base and leaves an empty text otherwise.
* `LeadsWithNul`: the digits of a number in a base of another size are in the table, and the first
  one is its NUL.

## Main results

* `itoa_base`: what `itoa` writes for a valid base.
* `itoaExact_iff`: the numbers and bases for which `itoa` is exact.
-/

namespace HathorLedger

/-! ### Digits -/

/-- The digits of a number in a base without leading zeros; a single `0` for zero. -/
def numeralDigits (b n : ℕ) : List ℕ := if n = 0 then [0] else Numeral.digits b n

/-- The character of a digit. -/
def baseChar (d : ℕ) : UInt8 := if d < 10 then UInt8.ofNat (48 + d) else UInt8.ofNat (87 + d)

theorem numeralDigits_of_lt {b n : ℕ} (h : n < b) : numeralDigits b n = [n] := by
  rcases Nat.eq_zero_or_pos n with rfl | hpos
  · rfl
  · rw [numeralDigits, if_neg hpos.ne', Numeral.digits_eq_append (by omega) hpos,
      Nat.div_eq_of_lt h, Numeral.digits_zero, Nat.mod_eq_of_lt h]
    rfl

theorem numeralDigits_of_le {b n : ℕ} (hb : 1 < b) (h : b ≤ n) :
    numeralDigits b n = numeralDigits b (n / b) ++ [n % b] := by
  have hdiv : 0 < n / b := Nat.div_pos h (by omega)
  rw [numeralDigits, numeralDigits, if_neg (by omega), if_neg hdiv.ne',
    Numeral.digits_eq_append hb (by omega)]

theorem lt_of_mem_numeralDigits {b n d : ℕ} (hb : 1 < b) (h : d ∈ numeralDigits b n) : d < b := by
  rw [numeralDigits] at h
  split_ifs at h
  · rw [List.mem_singleton.1 h]
    exact hb.pos
  · exact Numeral.lt_of_mem_digits hb h

/-- The text represents the number: a sign exactly if it is negative, and its digits in the base,
with no zero in front. -/
def Represents (b : ℕ) (value : ℤ) (text : Bytes) : Prop :=
  ∃ digits : List ℕ, text = (if value < 0 then [45] else []) ++ digits.map baseChar ∧
    digits ≠ [] ∧ (∀ d ∈ digits, d < b) ∧ (digits.head? = some 0 → digits = [0]) ∧
    Numeral.value b digits = value.natAbs

theorem represents_numeralDigits {b : ℕ} (hb : 1 < b) (value : ℤ) :
    Represents b value ((if value < 0 then [45] else []) ++
      (numeralDigits b value.natAbs).map baseChar) := by
  refine ⟨_, rfl, ?_, fun d hd => lt_of_mem_numeralDigits hb hd, ?_, ?_⟩
  · unfold numeralDigits
    split_ifs with hzero
    · simp
    · exact mt Numeral.digits_eq_nil_iff.1 hzero
  · unfold numeralDigits
    split_ifs with hzero
    · exact fun _ => rfl
    · exact fun hhead => absurd hhead (Numeral.head_digits_ne_zero hb)
  · unfold numeralDigits
    split_ifs with hzero
    · rw [hzero]
      rfl
    · exact Numeral.value_digits

/-! ### The table -/

/-- The table is mirrored at the digit `0`. -/
theorem itoaCell_digit {r : ℤ} (h : r.natAbs < 36) : itoaCell (35 + r) = some (baseChar r.natAbs) := by
  have hcells : ∀ i < 71, itoaCell (i : ℕ) = some (baseChar ((i : ℤ) - 35).natAbs) := by
    decide
  obtain ⟨i, hi⟩ := Int.eq_ofNat_of_zero_le (a := 35 + r) (by omega)
  have hr : (i : ℤ) - 35 = r := by omega
  rw [hi, hcells i (by omega), hr]

theorem baseChar_ne_zero {d : ℕ} (h : d < 36) : baseChar d ≠ 0 := by
  revert d
  decide

/-- The cells of the table are those from 0 to 71. -/
theorem itoaCell_eq_none_iff {i : ℤ} : itoaCell i = none ↔ ¬(0 ≤ i ∧ i ≤ 71) := by
  have hlength : itoaTable.length = 72 := rfl
  unfold itoaCell
  split_ifs with hneg
  · exact iff_of_true rfl (by omega)
  · rw [List.getElem?_eq_none_iff, hlength]
    omega

/-- The NUL is in the last cell. -/
theorem itoaCell_eq_nul_iff {i : ℤ} : itoaCell i = some 0 ↔ i = 71 := by
  constructor
  · intro h
    have hinside : 0 ≤ i ∧ i ≤ 71 := by
      by_contra hout
      rw [itoaCell_eq_none_iff.2 hout] at h
      cases h
    by_contra hne
    have hdigit := @itoaCell_digit (i - 35) (by omega)
    rw [add_sub_cancel, h] at hdigit
    exact baseChar_ne_zero (by omega) (Option.some_inj.1 hdigit).symm
  · rintro rfl
    rfl

/-! ### Valid bases -/

section Loop

variable {base value : ℤ} {fuel : ℕ} {out : Bytes}

/-- One round of the loop. -/
theorem itoaLoop_of_digit (hbase : base ≠ 0) {digit : UInt8}
    (hcell : itoaCell (35 + value.tmod base) = some digit) :
    itoaLoop base (fuel + 1) value out =
      if value.tdiv base = 0 then some (out ++ [digit], value)
      else itoaLoop base fuel (value.tdiv base) (out ++ [digit]) := by
  have hrem : value - value.tdiv base * base = value.tmod base := by
    rw [Int.tmod_def, Int.mul_comm]
  rw [itoaLoop, if_neg hbase]
  simp only [hrem, hcell]

theorem itoaLoop_of_outside (hbase : base ≠ 0) (hcell : itoaCell (35 + value.tmod base) = none) :
    itoaLoop base (fuel + 1) value out = none := by
  have hrem : value - value.tdiv base * base = value.tmod base := by
    rw [Int.tmod_def, Int.mul_comm]
  rw [itoaLoop, if_neg hbase]
  simp only [hrem, hcell]

theorem tdiv_eq_zero_iff (hbase : base ≠ 0) :
    value.tdiv base = 0 ↔ value.natAbs < base.natAbs := by
  rw [← Int.natAbs_eq_zero, Int.natAbs_tdiv]
  exact Nat.div_eq_zero_iff_lt (Int.natAbs_pos.2 hbase)

/-- The quotient has the sign of the number, as long as it is not zero. -/
theorem tdiv_neg_iff {b : ℕ} (h : value.tdiv b ≠ 0) : value.tdiv b < 0 ↔ value < 0 := by
  constructor
  · intro hquot
    by_contra hvalue
    exact absurd hquot (not_lt.2 (Int.tdiv_nonneg (not_lt.1 hvalue) (Int.natCast_nonneg b)))
  · intro hvalue
    refine lt_of_le_of_ne ?_ h
    have hneg := Int.tdiv_nonneg (Int.neg_nonneg_of_nonpos hvalue.le) (Int.natCast_nonneg b)
    rw [Int.neg_tdiv] at hneg
    omega

/-- In a valid base the loop writes the digits, the last one first. -/
theorem itoaLoop_base {b : ℕ} (hb : 2 ≤ b) (hb' : b ≤ 36) (hfuel : value.natAbs < b ^ (fuel + 1)) :
    ∃ last : ℤ, (last < 0 ↔ value < 0) ∧ itoaLoop b (fuel + 1) value out =
      some (out ++ ((numeralDigits b value.natAbs).map baseChar).reverse, last) := by
  have hbase : (b : ℤ) ≠ 0 := by omega
  have hdigit : ∀ n : ℤ, itoaCell (35 + n.tmod b) = some (baseChar (n.natAbs % b)) := by
    intro n
    have hlt : n.natAbs % b < b := Nat.mod_lt _ (by omega)
    have habs : (n.tmod b).natAbs = n.natAbs % b := Int.natAbs_tmod n b
    rw [itoaCell_digit (habs ▸ hlt.trans_le hb'), habs]
  have hlast : ∀ {n : ℤ} {fuel : ℕ} {out : Bytes}, n.natAbs < b →
      itoaLoop b (fuel + 1) n out =
        some (out ++ ((numeralDigits b n.natAbs).map baseChar).reverse, n) := by
    intro n fuel out hlt
    rw [itoaLoop_of_digit hbase (hdigit n), if_pos ((tdiv_eq_zero_iff hbase).2 hlt),
      numeralDigits_of_lt hlt, Nat.mod_eq_of_lt hlt]
    rfl
  induction fuel generalizing value out with
  | zero => exact ⟨value, Iff.rfl, hlast (by simpa using hfuel)⟩
  | succ fuel ih =>
    rcases Nat.lt_or_ge value.natAbs b with hlt | hge
    · exact ⟨value, Iff.rfl, hlast hlt⟩
    · have hquot : value.tdiv b ≠ 0 := mt (tdiv_eq_zero_iff hbase).1 hge.not_gt
      have habs : (value.tdiv b).natAbs = value.natAbs / b := Int.natAbs_tdiv value b
      obtain ⟨last, hsign, hloop⟩ := @ih (value.tdiv b) (out ++ [baseChar (value.natAbs % b)])
        (by rw [habs]; exact Nat.div_lt_of_lt_mul (by rwa [pow_succ, Nat.mul_comm] at hfuel))
      refine ⟨last, hsign.trans (tdiv_neg_iff hquot), ?_⟩
      rw [itoaLoop_of_digit hbase (hdigit value), if_neg hquot, hloop, habs,
        numeralDigits_of_le (by omega) hge]
      simp

/-- What `itoa` writes for a valid base: the sign, the digits and a NUL. -/
theorem itoa_base {b : ℕ} (hb : 2 ≤ b) (hb' : b ≤ 36) (hvalue : value.natAbs < 2 ^ 33) :
    itoa value b = some ((if value < 0 then [45] else []) ++
      (numeralDigits b value.natAbs).map baseChar ++ [0]) := by
  obtain ⟨last, hsign, hloop⟩ := @itoaLoop_base value 32 [] b hb hb'
    (hvalue.trans_le (Nat.pow_le_pow_left hb 33))
  rw [itoa, hloop]
  simp only [hsign, List.nil_append]
  split_ifs
  · simp
  · simp

end Loop

/-! ### Other bases -/

/-- Every digit of the number in the base is in the table, and the first one is its NUL. Division is
truncated, so that the digits of a negative number are negative. -/
def LeadsWithNul (value base : ℤ) : Prop :=
  ∃ k : ℕ, value.tdiv (base ^ k) = 36 ∧
    ∀ i < k, -35 ≤ (value.tdiv (base ^ i)).tmod base ∧ (value.tdiv (base ^ i)).tmod base ≤ 36

section Invalid

variable {base value last : ℤ} {fuel : ℕ} {out digits : Bytes}

/-- The digit written last is the cell of a remainder. -/
theorem exists_of_itoaLoop (h : itoaLoop base fuel value out = some (digits, last)) :
    ∃ front digit r, digits = front ++ [digit] ∧ itoaCell (35 + r) = some digit ∧
      r.natAbs < base.natAbs := by
  induction fuel generalizing value out with
  | zero => cases h
  | succ fuel ih =>
    by_cases hbase : base = 0
    · rw [itoaLoop, if_pos hbase] at h
      cases h
    · cases hcell : itoaCell (35 + value.tmod base) with
      | none =>
        rw [itoaLoop_of_outside hbase hcell] at h
        cases h
      | some digit =>
        rw [itoaLoop_of_digit hbase hcell] at h
        split_ifs at h with hzero
        · obtain ⟨rfl, -⟩ := Prod.mk.inj (Option.some_inj.1 h)
          refine ⟨out, digit, _, rfl, hcell, ?_⟩
          rw [Int.natAbs_tmod]
          exact Nat.mod_lt _ (Int.natAbs_pos.2 hbase)
        · exact ih h

theorem tdiv_tdiv (a b c : ℤ) : (a.tdiv b).tdiv c = a.tdiv (b * c) := by
  have hnat : ∀ l m n : ℕ, ((l : ℤ).tdiv m).tdiv n = (l : ℤ).tdiv (m * n) := by
    intro l m n
    rw [← Int.natCast_mul, ← Int.ofNat_tdiv, ← Int.ofNat_tdiv, ← Int.ofNat_tdiv,
      Nat.div_div_eq_div_mul]
  obtain ⟨l, rfl | rfl⟩ := a.eq_nat_or_neg <;> obtain ⟨m, rfl | rfl⟩ := b.eq_nat_or_neg <;>
    obtain ⟨n, rfl | rfl⟩ := c.eq_nat_or_neg <;>
    simp only [Int.neg_tdiv, Int.tdiv_neg, neg_neg, neg_mul, mul_neg, hnat]

theorem leadsWithNul_of_lt (h : value.natAbs < base.natAbs) :
    LeadsWithNul value base ↔ value = 36 := by
  constructor
  · rintro ⟨k, hk, -⟩
    cases k with
    | zero => rwa [pow_zero, Int.tdiv_one] at hk
    | succ k =>
      have hzero : value.tdiv base = 0 := (tdiv_eq_zero_iff (by omega)).2 h
      rw [pow_succ', ← tdiv_tdiv, hzero, Int.zero_tdiv] at hk
      cases hk
  · rintro rfl
    exact ⟨0, by rw [pow_zero, Int.tdiv_one], fun i hi => absurd hi (Nat.not_lt_zero i)⟩

/-- The last digit is split off. -/
theorem leadsWithNul_of_le (hbase : 36 < base.natAbs) (h : base.natAbs ≤ value.natAbs) :
    LeadsWithNul value base ↔
      (-35 ≤ value.tmod base ∧ value.tmod base ≤ 36) ∧ LeadsWithNul (value.tdiv base) base := by
  constructor
  · rintro ⟨k, hk, hdigits⟩
    cases k with
    | zero =>
      rw [pow_zero, Int.tdiv_one] at hk
      omega
    | succ k =>
      have hlast := hdigits 0 (Nat.succ_pos k)
      rw [pow_zero, Int.tdiv_one] at hlast
      refine ⟨hlast, k, ?_, fun i hi => ?_⟩
      · rw [tdiv_tdiv, ← pow_succ', hk]
      · rw [tdiv_tdiv, ← pow_succ']
        exact hdigits (i + 1) (Nat.succ_lt_succ hi)
  · rintro ⟨hlast, k, hk, hdigits⟩
    refine ⟨k + 1, ?_, fun i hi => ?_⟩
    · rw [pow_succ', ← tdiv_tdiv, hk]
    · cases i with
      | zero => rwa [pow_zero, Int.tdiv_one]
      | succ i =>
        rw [pow_succ', ← tdiv_tdiv]
        exact hdigits i (Nat.lt_of_succ_lt_succ hi)

/-- The loop ends with the NUL of the table if and only if the number leads with it. -/
theorem itoaLoop_nul_iff (hbase : 36 < base.natAbs)
    (hfuel : value.natAbs < base.natAbs ^ (fuel + 1)) :
    (∃ front last, itoaLoop base (fuel + 1) value out = some (front ++ [0], last) ∧ 0 ≤ last) ↔
      LeadsWithNul value base := by
  have hne : base ≠ 0 := by omega
  have hlast : ∀ {n : ℤ} {fuel : ℕ} {out : Bytes}, n.natAbs < base.natAbs →
      ((∃ front last, itoaLoop base (fuel + 1) n out = some (front ++ [0], last) ∧ 0 ≤ last) ↔
        LeadsWithNul n base) := by
    intro n fuel out hlt
    have hzero : n.tdiv base = 0 := (tdiv_eq_zero_iff hne).2 hlt
    have hrem : n.tmod base = n := by rw [Int.tmod_def, hzero, Int.mul_zero, Int.sub_zero]
    rw [leadsWithNul_of_lt hlt]
    constructor
    · rintro ⟨front, last, hloop, -⟩
      cases hcell : itoaCell (35 + n.tmod base) with
      | none =>
        rw [itoaLoop_of_outside hne hcell] at hloop
        cases hloop
      | some digit =>
        rw [itoaLoop_of_digit hne hcell, if_pos hzero] at hloop
        have hdigit := (Prod.mk.inj (Option.some_inj.1 hloop)).1
        obtain rfl : digit = 0 := by simpa using (List.append_inj' hdigit rfl).2
        rw [itoaCell_eq_nul_iff, hrem] at hcell
        omega
    · rintro rfl
      have hcell : itoaCell (35 + (36 : ℤ).tmod base) = some 0 := by
        rw [hrem]
        exact itoaCell_eq_nul_iff.2 rfl
      exact ⟨out, 36, by rw [itoaLoop_of_digit hne hcell, if_pos hzero], by decide⟩
  induction fuel generalizing value out with
  | zero => exact hlast (by simpa using hfuel)
  | succ fuel ih =>
    rcases Nat.lt_or_ge value.natAbs base.natAbs with hlt | hge
    · exact hlast hlt
    · have hquot : value.tdiv base ≠ 0 := mt (tdiv_eq_zero_iff hne).1 hge.not_gt
      rw [leadsWithNul_of_le hbase hge]
      cases hcell : itoaCell (35 + value.tmod base) with
      | none =>
        rw [itoaLoop_of_outside hne hcell]
        have hout := itoaCell_eq_none_iff.1 hcell
        refine iff_of_false ?_ fun h => hout (by omega)
        rintro ⟨front, last, hloop, -⟩
        cases hloop
      | some digit =>
        have hinside : 0 ≤ 35 + value.tmod base ∧ 35 + value.tmod base ≤ 71 := by
          by_contra hout
          rw [itoaCell_eq_none_iff.2 hout] at hcell
          cases hcell
        have habs : (value.tdiv base).natAbs = value.natAbs / base.natAbs := Int.natAbs_tdiv ..
        rw [itoaLoop_of_digit hne hcell, if_neg hquot, and_iff_right (by omega)]
        refine ih ?_
        rw [habs]
        exact Nat.div_lt_of_lt_mul (by rwa [pow_succ, Nat.mul_comm] at hfuel)

/-! ### All bases -/

/-- `itoa` represents the number in a base between 2 and 36, and leaves an empty text for all other
bases. -/
structure ItoaExact (value base : ℤ) : Prop where
  valid : 2 ≤ base → base ≤ 36 →
    ∃ text, itoa value base = some (text ++ [0]) ∧ Represents base.toNat value text
  invalid : ¬(2 ≤ base ∧ base ≤ 36) → ∃ out, itoa value base = some out ∧ cstr out = []

/-- The text is empty if and only if the loop ends with a NUL and there is no sign. -/
theorem itoa_empty_iff : (∃ out, itoa value base = some out ∧ cstr out = []) ↔
    ∃ front last, itoaLoop base 33 value [] = some (front ++ [0], last) ∧ 0 ≤ last := by
  rw [itoa]
  cases hloop : itoaLoop base 33 value [] with
  | none =>
    constructor
    · rintro ⟨out, hout, -⟩
      cases hout
    · rintro ⟨front, last, hsome, -⟩
      cases hsome
  | some result =>
    obtain ⟨digits, last⟩ := result
    obtain ⟨front, digit, r, rfl, -⟩ := exists_of_itoaLoop hloop
    constructor
    · rintro ⟨out, hout, hempty⟩
      obtain rfl := Option.some_inj.1 hout
      by_cases hsign : last < 0
      · rw [if_pos hsign, List.reverse_append, List.reverse_singleton] at hempty
        simp [cstr] at hempty
      · rw [if_neg hsign, List.reverse_append, List.reverse_singleton] at hempty
        have hzero : digit = 0 := by
          by_contra hne
          simp [cstr, hne] at hempty
        exact ⟨front, last, by rw [hzero], not_lt.1 hsign⟩
    · rintro ⟨front', last', hsome, hsign⟩
      obtain ⟨hdigits, rfl⟩ := Prod.mk.inj (Option.some_inj.1 hsome)
      refine ⟨_, rfl, ?_⟩
      rw [if_neg (not_lt.2 hsign), hdigits, List.reverse_append]
      simp [cstr]

/-- In a base between -36 and 36 no remainder reads the NUL behind the table. -/
theorem not_itoaLoop_nul (hbase : base.natAbs ≤ 36) :
    ¬∃ front last, itoaLoop base fuel value out = some (front ++ [0], last) ∧ 0 ≤ last := by
  rintro ⟨front, last, hloop, -⟩
  obtain ⟨front', digit, r, hdigits, hcell, hr⟩ := exists_of_itoaLoop hloop
  obtain rfl : 0 = digit := by simpa using (List.append_inj' hdigits rfl).2
  have := itoaCell_eq_nul_iff.1 hcell
  omega

/-- For every 32-bit number and every base, `itoa` is exact in a valid base, and otherwise only for
numbers that lead with the NUL of its table. -/
theorem itoaExact_iff (hlow : -2 ^ 31 ≤ value) (hhigh : value < 2 ^ 31) :
    ItoaExact value base ↔
      (2 ≤ base ∧ base ≤ 36) ∨ (36 < base.natAbs ∧ LeadsWithNul value base) := by
  by_cases hvalid : 2 ≤ base ∧ base ≤ 36
  · refine iff_of_true ⟨fun hb hb' => ?_, fun hnot => absurd hvalid hnot⟩ (.inl hvalid)
    have hbase : ((base.toNat : ℕ) : ℤ) = base := Int.toNat_of_nonneg (by omega)
    have hitoa := @itoa_base value base.toNat (by omega) (by omega) (by omega)
    rw [hbase] at hitoa
    exact ⟨_, hitoa, represents_numeralDigits (by omega) value⟩
  · have hexact : ItoaExact value base ↔ ∃ out, itoa value base = some out ∧ cstr out = [] :=
      ⟨fun h => h.invalid hvalid, fun h => ⟨fun hb hb' => absurd ⟨hb, hb'⟩ hvalid, fun _ => h⟩⟩
    rw [hexact, itoa_empty_iff, or_iff_right hvalid]
    rcases Nat.lt_or_ge 36 base.natAbs with hlarge | hsmall
    · have hfuel : value.natAbs < base.natAbs ^ 33 := by
        calc value.natAbs < 2 ^ 33 := by omega
          _ ≤ base.natAbs ^ 33 := Nat.pow_le_pow_left (by omega) 33
      rw [itoaLoop_nul_iff hlarge hfuel, and_iff_right hlarge]
    · exact iff_of_false (not_itoaLoop_nul hsmall) fun h => absurd h.1 hsmall.not_gt

end Invalid

/-- `-cafe`. -/
theorem itoaExact_sample : ItoaExact (-51966) 16 :=
  (itoaExact_iff (by decide) (by decide)).2 (.inl (by decide))

/-- In base 0 the conversion goes on and divides by zero. -/
theorem not_itoaExact_zeroBase : ¬ItoaExact 27 0 := by
  intro h
  obtain ⟨out, hout, -⟩ := h.invalid (by decide)
  cases hout

/-- In base 37 the digit of a small number is written over the NUL. -/
example : itoa 27 37 = some [114, 0] := rfl

end HathorLedger
