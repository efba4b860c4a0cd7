import HathorLedger.Common.Decimal
import HathorLedger.Transaction.Grammar
import HathorLedger.Ui.Display
import Mathlib.Data.Nat.Log

/-!
# The length of the amount line

`format_value` takes no capacity, and `prepare_display_output` writes the symbol, a space and the
value to the 30 cells of `g_amount`. A value of `n` digits in front of the decimal point takes
`(n - 1) / 3` commas, the point and two more digits.

## Main results

* `length_formatValue`: the number of cells that `format_value` writes.
* `value_le_of_parseOutput`: the values that `parse_output` returns.
* `length_amountText_le_iff`: which symbols and values fit.
-/

namespace HathorLedger

/-- The number of cells of `g_amount`. -/
def amountCells : ℕ := 30

/-! ### Digits and separators -/

/-- The number of decimal digits. -/
theorem length_decimalText (n : ℕ) : (decimalText n).length = Nat.log 10 n + 1 := by
  rw [decimalText]
  split_ifs with hn
  · rw [hn, Nat.log_zero_right]
    rfl
  · rw [List.length_map, Numeral.digits, List.length_reverse, Nat.length_digits 10 n (by decide) hn]

/-- There is a comma for every three digits in front of the last one. -/
theorem length_groupThousands (buf : Bytes) :
    (groupThousands buf).length = buf.length + (buf.length - 1) / 3 := by
  induction buf with
  | nil => rfl
  | cons d buf ih =>
    by_cases hbuf : buf = []
    · subst hbuf
      simp [groupThousands]
    · have hpos := List.length_pos_iff.2 hbuf
      rw [groupThousands]
      split_ifs with hcomma
      · simp only [List.length_cons, ih]
        omega
      · rw [and_iff_left hbuf] at hcomma
        simp only [List.length_cons, ih]
        omega

theorem length_formatValue {value : ℕ} (h : value < 2 ^ 64) :
    (formatValue value).length =
      Nat.log 10 (value / 100) + 1 + Nat.log 10 (value / 100) / 3 + 4 := by
  rw [formatValue_eq h, valueText, List.length_append, List.length_append, length_groupThousands,
    length_decimalText]
  simp only [List.length_cons, List.length_nil]
  omega

/-! ### The line -/

/-- A value field of eight bytes starts with a set bit and holds the negated value. -/
theorem WireOutput.valueOf_le (o : WireOutput) : valueOf o.valueField ≤ 2 ^ 63 := by
  have hlen := o.length_valueField
  have hlt := beValue_lt o.valueField
  unfold valueOf
  unfold valueWidth at hlen
  split_ifs at hlen ⊢ with hbit
  · have hfirst := beValue_eq_byteAt hlen
    rw [hlen] at hlt
    omega
  · rw [hlen] at hlt
    omega

/-- A value is at most the largest number that eight bytes can announce. -/
theorem value_le_of_parseOutput {input : Bytes} {inlen : ℕ} {output : TxOutput} {n : ℕ}
    (hinput : inlen ≤ input.length) (hlt : inlen < sizeMod)
    (h : parseOutput input inlen = .ok (output, n)) : output.value ≤ 2 ^ 63 := by
  rw [parseOutput_eq hinput hlt, Except.map_eq_ok_iff] at h
  obtain ⟨o, -, ho⟩ := h
  obtain ⟨rfl, -⟩ := Prod.mk.injEq .. ▸ ho
  exact o.valueOf_le

/-- The number of digits of the integral part, in terms of the value. -/
theorem log_div_lt_iff (value k : ℕ) :
    Nat.log 10 (value / 100) < k + 1 ↔ value < 10 ^ (k + 3) := by
  have hpow : 10 ^ (k + 3) = 10 ^ (k + 1) * 100 := by ring
  rw [hpow, ← Nat.div_lt_iff_lt_mul (by decide)]
  rcases Nat.eq_zero_or_pos (value / 100) with hzero | hpos
  · simp [hzero]
  · exact Nat.log_lt_iff_lt_pow (by decide) hpos.ne'

/-- The amount line fits into `g_amount` for symbols of up to three characters, and for longer ones
if the value has few digits. -/
theorem length_amountText_le_iff {input : Bytes} {inlen : ℕ} {output : TxOutput} {n : ℕ}
    (hinput : inlen ≤ input.length) (hlt : inlen < sizeMod)
    (h : parseOutput input inlen = .ok (output, n)) {symbol : Bytes}
    (hsymbol : symbol.length ≤ maxTokenSymbolLen) :
    (amountText symbol output.value).length ≤ amountCells ↔
      symbol.length ≤ 3 ∨ symbol.length = 4 ∧ output.value < 10 ^ 18 ∨
        symbol.length = 5 ∧ output.value < 10 ^ 17 := by
  have hvalue := value_le_of_parseOutput hinput hlt h
  have hmax := (log_div_lt_iff output.value 16).2 (by omega)
  have h₁₅ := log_div_lt_iff output.value 15
  have h₁₄ := log_div_lt_iff output.value 14
  rw [maxTokenSymbolLen] at hsymbol
  rw [amountText, List.length_append, List.length_append, length_formatValue (by omega),
    List.length_singleton, amountCells]
  omega

/-- A serialised output of the largest value, of a registered token. -/
def largestOutput : Bytes :=
  [0x80, 0, 0, 0, 0, 0, 0, 0, 1, 0, 25] ++ p2pkh.take 3 ++ List.replicate pubkeyHashLen 0 ++
    p2pkh.drop 3

theorem parseOutput_largestOutput : parseOutput largestOutput 36 =
    .ok ({ value := 2 ^ 63, tokenData := 1, pubkeyHash := List.replicate pubkeyHashLen 0 }, 36) := by
  decide +kernel

theorem length_amountText_largestOutput :
    (amountText [65, 66, 67, 68] (2 ^ 63)).length ≤ amountCells ↔
      [65, 66, 67, 68].length ≤ 3 ∨ [65, 66, 67, 68].length = 4 ∧ 2 ^ 63 < 10 ^ 18 ∨
        [65, 66, 67, 68].length = 5 ∧ 2 ^ 63 < 10 ^ 17 :=
  length_amountText_le_iff (by decide) (by decide) parseOutput_largestOutput (by decide)

/-- With a symbol of five characters the line of the largest value takes 32 cells. -/
theorem amountText_overflows : ¬∀ (input : Bytes) (inlen : ℕ) (output : TxOutput) (n : ℕ)
    (symbol : Bytes), inlen ≤ input.length → inlen < sizeMod →
      parseOutput input inlen = .ok (output, n) → symbol.length ≤ maxTokenSymbolLen →
        (amountText symbol output.value).length ≤ amountCells := by
  intro h
  have hfits := h largestOutput 36 _ _ [65, 66, 67, 68, 69] (by decide) (by decide)
    parseOutput_largestOutput (by decide)
  have hlen : (amountText [65, 66, 67, 68, 69] (2 ^ 63)).length = 32 := by decide +kernel
  rw [hlen] at hfits
  exact absurd hfits (by decide)

end HathorLedger
