import HathorLedger.Common.Decimal
import HathorLedger.Library.Counting
import HathorLedger.Ui.Display

/-!
# The counter of the output screen

An output screen shows `i/n`, where `n` should be the number of outputs that are no change and `i`
the rank of the output among them. The code subtracts one for each change entry, so that an index
that is declared twice, or that no output has, is subtracted once too often.

## Main definitions

* `counterText`: the text with the rank and the number.
* `DistinctChanges`: the declared indices are pairwise distinct and belong to outputs.

## Main results

* `outputIndexText_eq_iff`: the code writes the right text exactly if the declared indices are
  distinct and belong to outputs.
-/

namespace HathorLedger

/-- The number of outputs in front of output `j` that are not declared as change. -/
def outputsBefore (t : TxInfo) (j : ℕ) : ℕ := Nat.count (fun k => k ∉ t.changeIndices) j

/-- The rank of output `j` among the outputs that are not declared as change, and their number. -/
def counterText (t : TxInfo) (j : ℕ) : Bytes :=
  decimalText (outputsBefore t j + 1) ++ 47 :: decimalText (outputsBefore t t.outputsLen)

/-- The declared indices are pairwise distinct and belong to outputs. -/
def DistinctChanges (t : TxInfo) : Prop :=
  t.changeIndices.Nodup ∧ ∀ k ∈ t.changeIndices, k < t.outputsLen

section Counter

variable {t : TxInfo} {output : TxOutput}

/-- The rank is between 1 and the number. -/
theorem outputsBefore_lt {j : ℕ} (hj : j < t.outputsLen) (hchange : j ∉ t.changeIndices) :
    outputsBefore t j < outputsBefore t t.outputsLen :=
  Nat.count_strict_mono (p := fun k => k ∉ t.changeIndices) hchange hj

theorem decimalText_append_eq_iff {a b a' b' : ℕ} :
    decimalText a ++ 47 :: decimalText b = decimalText a' ++ 47 :: decimalText b' ↔
      a = a' ∧ b = b' := by
  have hslash : ∀ n, (47 : UInt8) ∉ decimalText n := fun n hmem =>
    decimalText_ne hmem (by decide) rfl
  have hinj : ∀ {m n}, decimalText m = decimalText n ↔ m = n := fun {m n} =>
    (Function.LeftInverse.injective decimalValue_decimalText).eq_iff
  rw [List.append_cons_inj_of_notMem (hslash a) (hslash b), hinj, hinj]
  simp

/-- The text as the code computes it, without the NUL. -/
theorem cstr_outputIndexText (t : TxInfo) (output : TxOutput) :
    cstr (outputIndexText t output) =
      decimalText (u8 (u8 (output.index + 1) + 256 -
        (t.changeIndices.filter fun index => output.index > index).length)) ++
      47 :: decimalText (u8 (t.outputsLen + 256 - t.changeLen)) := by
  have hbyte : ∀ n, u8 n < 2 ^ 31 := fun n => (u8_lt n).trans (by decide)
  have hdigit : ∀ {n : ℕ} {c : UInt8}, c ∈ decimalText n → c ≠ 0 := fun hc =>
    decimalText_ne hc (by decide)
  rw [outputIndexText, decimal_eq (hbyte _), itoa_eq (hbyte _), Option.getD_some,
    ← List.append_assoc, cstr_append_nul, List.append_assoc, List.singleton_append]
  intro c hc
  rcases List.mem_append.1 hc with hc | hc
  · rcases List.mem_append.1 hc with hc | hc
    · exact hdigit hc
    · rw [List.mem_singleton.1 hc]
      decide
  · exact hdigit hc

/-- The code writes the right text exactly if the declared indices are distinct and belong to
outputs. -/
theorem outputIndexText_eq_iff (hlen : t.changeIndices.length = t.changeLen)
    (hmax : t.changeLen ≤ 1 + txMaxTokens) (houtputs : t.outputsLen < 256)
    (hj : output.index < t.outputsLen) :
    cstr (outputIndexText t output) = counterText t output.index ↔ DistinctChanges t := by
  have hiff := @Nat.count_not_mem_add_length_eq_iff t.changeIndices t.outputsLen
  have hle : outputsBefore t t.outputsLen ≤ t.outputsLen := Nat.count_le _
  rw [cstr_outputIndexText, counterText, decimalText_append_eq_iff, DistinctChanges, ← hiff]
  change _ ↔ outputsBefore t t.outputsLen + _ = _
  rw [txMaxTokens] at hmax
  unfold u8
  constructor
  · rintro ⟨-, htotal⟩
    omega
  · intro hsum
    have hnodup : t.changeIndices.Nodup := (hiff.1 hsum).1
    have hrank : outputsBefore t output.index +
        (t.changeIndices.filter fun index => output.index > index).length = output.index :=
      Nat.count_not_mem_add_length hnodup
    omega

end Counter

end HathorLedger
