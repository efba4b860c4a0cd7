import HathorLedger.Common.Itoa

/-!
# Decimal texts

`format_u64` and `itoa` write the decimal digits of a number from the last one on and turn them
around. `format_value` writes the integral part of an amount with a comma after each digit that has
a multiple of three digits behind it, and puts the decimal point in the place of the last comma.

## Main definitions

* `decimalText`: the decimal digits of a number.
* `groupThousands`, `valueText`: an amount as it is displayed.

## Main results

* `formatU64_eq`, `itoa_eq`: both write the decimal digits.
* `showsValue`: `format_value` writes the amount exactly.
-/

namespace HathorLedger

/-! ### Digits -/

/-- The character of a decimal digit. -/
def decimalChar (d : ℕ) : UInt8 := UInt8.ofNat (d + 48)

/-- The decimal digits of a number without leading zeros; a single `0` for zero. -/
def decimalText (n : ℕ) : Bytes :=
  if n = 0 then [48] else (Numeral.digits 10 n).map decimalChar

theorem decimalText_eq (n : ℕ) : decimalText n = (numeralDigits 10 n).map decimalChar := by
  rw [decimalText, numeralDigits]
  split_ifs
  · rfl
  · rfl

theorem decimalText_of_lt {n : ℕ} (h : n < 10) : decimalText n = [decimalChar n] := by
  rw [decimalText_eq, numeralDigits_of_lt h]
  rfl

theorem decimalText_of_le {n : ℕ} (h : 10 ≤ n) :
    decimalText n = decimalText (n / 10) ++ [decimalChar (n % 10)] := by
  rw [decimalText_eq, decimalText_eq, numeralDigits_of_le (by decide) h, List.map_append]
  rfl

theorem decimalText_ne_nil (n : ℕ) : decimalText n ≠ [] := by
  rcases Nat.lt_or_ge n 10 with h | h
  · simp [decimalText_of_lt h]
  · simp [decimalText_of_le h]

/-- The digits are digits. -/
theorem mem_decimalText {n : ℕ} {c : UInt8} (h : c ∈ decimalText n) :
    ∃ d < 10, c = decimalChar d := by
  rw [decimalText] at h
  split_ifs at h with hn
  · exact ⟨0, by decide, List.mem_singleton.1 h⟩
  · obtain ⟨d, hd, rfl⟩ := List.mem_map.1 h
    exact ⟨d, Numeral.lt_of_mem_digits (by decide) hd, rfl⟩

theorem toNat_decimalChar {d : ℕ} (h : d < 10) : (decimalChar d).toNat = d + 48 :=
  UInt8.toNat_ofNat_of_lt' (by rw [UInt8.size]; omega)

theorem decimalText_ne {n : ℕ} {c x : UInt8} (h : c ∈ decimalText n) (hx : x < 48) : c ≠ x := by
  rintro rfl
  obtain ⟨d, hd, rfl⟩ := mem_decimalText h
  have := UInt8.lt_iff_toNat_lt.1 hx
  rw [toNat_decimalChar hd] at this
  simp at this

/-- The number of digits. -/
theorem length_decimalText_le_iff {n k : ℕ} (hk : 0 < k) :
    (decimalText n).length ≤ k ↔ n < 10 ^ k := by
  rw [decimalText]
  split_ifs with hn
  · exact iff_of_true hk (hn ▸ Nat.pow_pos (by decide))
  · rw [List.length_map, Numeral.length_digits_le_iff (by decide)]

/-- The first digits of a number are those of a smaller one. -/
theorem exists_take_decimalText {n k : ℕ} (hk : 0 < k) (hlt : k < (decimalText n).length) :
    ∃ m < n, (decimalText n).take k = decimalText m := by
  induction n using Nat.strongRecOn with
  | ind n ih =>
    rcases Nat.lt_or_ge n 10 with hn | hn
    · rw [decimalText_of_lt hn, List.length_singleton] at hlt
      omega
    · have hless : n / 10 < n := Nat.div_lt_self (by omega) (by decide)
      rw [decimalText_of_le hn, List.length_append, List.length_singleton] at hlt
      rw [decimalText_of_le hn, List.take_append_of_le_length (Nat.le_of_lt_succ hlt)]
      rcases Nat.lt_or_ge k (decimalText (n / 10)).length with hshort | hwhole
      · obtain ⟨m, hm, htake⟩ := ih (n / 10) hless hshort
        exact ⟨m, hm.trans hless, htake⟩
      · exact ⟨n / 10, hless, List.take_of_length_le hwhole⟩

/-- The value of a text of decimal digits. -/
def decimalValue (text : Bytes) : ℕ := Numeral.value 10 (text.map fun c => c.toNat - 48)

theorem map_decimalChar_sub {l : List ℕ} (h : ∀ d ∈ l, d < 10) :
    (l.map decimalChar).map (fun c => c.toNat - 48) = l := by
  rw [List.map_map]
  refine (List.map_congr_left fun d hd => ?_).trans (List.map_id l)
  simp [toNat_decimalChar (h d hd)]

@[simp] theorem decimalValue_decimalText (n : ℕ) : decimalValue (decimalText n) = n := by
  rw [decimalText]
  split_ifs with hn
  · exact hn ▸ rfl
  · rw [decimalValue, map_decimalChar_sub fun d hd => Numeral.lt_of_mem_digits (by decide) hd,
      Numeral.value_digits]

/-! ### `format_u64` and `itoa` -/

/-- The loop of `format_u64` writes all digits, where the output has room for them. -/
theorem formatU64Loop_eq {outLen fuel n : ℕ} {out : Bytes} (hfuel : n < 10 ^ (fuel + 1))
    (hlen : out.length + (decimalText n).length ≤ outLen) :
    formatU64Loop outLen (fuel + 1) out n = (true, decimalText n ++ out.reverse ++ [0]) := by
  induction fuel generalizing out n with
  | zero =>
    rw [formatU64Loop, if_neg (by omega), decimalText_of_lt (by omega)]
    simp [decimalChar]
  | succ fuel ih =>
    by_cases hn : n > 9
    · rw [decimalText_of_le hn] at hlen ⊢
      rw [List.length_append, List.length_singleton] at hlen
      have hpos := List.length_pos_iff.2 (decimalText_ne_nil (n / 10))
      have hout : (out ++ [UInt8.ofNat (n % 10 + 48)]).length = out.length + 1 := by simp
      rw [formatU64Loop, if_pos hn, if_neg (by omega),
        ih (Nat.div_lt_of_lt_mul (by rw [pow_succ] at hfuel; omega)) (by omega)]
      simp [decimalChar]
    · rw [formatU64Loop, if_neg hn, decimalText_of_lt (by omega)]
      simp [decimalChar]

/-- `format_u64` writes a 64-bit number whole, where the output has room for its digits. -/
theorem formatU64_eq {outLen n : ℕ} (hn : n < 2 ^ 64) (hlen : (decimalText n).length < outLen) :
    formatU64 outLen n = (true, decimalText n ++ [0]) := by
  rw [formatU64, if_neg (by omega), formatU64Loop_eq (hn.trans (by norm_num))
    (by rw [List.length_nil]; omega)]
  simp

/-- `itoa` writes the decimal digits of a number that is not negative. -/
theorem itoa_eq {n : ℕ} (h : n < 2 ^ 31) : itoa n 10 = some (decimalText n ++ [0]) := by
  have hsign : ¬(n : ℤ) < 0 := by omega
  have hchars : (numeralDigits 10 n).map baseChar = decimalText n := by
    rw [decimalText_eq]
    refine List.map_congr_left fun d hd => ?_
    have hlt : d < 10 := lt_of_mem_numeralDigits (by decide) hd
    rw [baseChar, if_pos hlt, decimalChar, Nat.add_comm]
  have hitoa := @itoa_base n 10 (by decide) (by decide) (by omega)
  rw [if_neg hsign, List.nil_append, Int.natAbs_natCast, hchars] at hitoa
  exact hitoa

/-- The text of `itoa` without the NUL. -/
theorem decimal_eq {n : ℕ} (h : n < 2 ^ 31) : decimal n = decimalText n := by
  rw [decimal, itoa_eq h, Option.getD_some,
    cstr_append_nul fun c hc => decimalText_ne hc (by decide)]

/-! ### Amounts -/

/-- A comma stands behind a digit exactly if a positive multiple of three digits follow it. -/
def groupThousands : Bytes → Bytes
  | [] => []
  | d :: rest =>
    if rest.length % 3 = 0 ∧ rest ≠ [] then d :: 44 :: groupThousands rest
    else d :: groupThousands rest

/-- An amount: the integral part in groups of three digits, the decimal point, and two digits. -/
def valueText (value : ℕ) : Bytes :=
  groupThousands (decimalText (value / 100)) ++
    [46, decimalChar (value % 100 / 10), decimalChar (value % 100 % 10)]

/-- The loop of `format_value` adds a comma behind the last digit too. -/
theorem formatValueLoop_eq {buf : Bytes} {c : ℕ} {out : Bytes} (hbuf : buf ≠ []) (hc : c < 3)
    (h : (c + buf.length) % 3 = 2) :
    formatValueLoop buf c out = out ++ groupThousands buf ++ [44] := by
  induction buf generalizing c out with
  | nil => exact absurd rfl hbuf
  | cons d buf ih =>
    rw [List.length_cons] at h
    by_cases hlast : buf = []
    · subst hlast
      have hc1 : c = 1 := by simp at h; omega
      simp [formatValueLoop, groupThousands, hc1]
    · have hcomma : buf.length % 3 = 0 ∧ buf ≠ [] ↔ c = 1 := by
        rw [and_iff_left hlast]
        omega
      rw [formatValueLoop, groupThousands, ih hlast (Nat.mod_lt _ (by decide)) (by omega)]
      simp only [hcomma]
      split_ifs
      · simp
      · simp

/-- `format_value` writes the amount and a NUL. -/
theorem formatValue_eq {value : ℕ} (h : value < 2 ^ 64) :
    formatValue value = valueText value ++ [0] := by
  have hlen : (decimalText (value / 100)).length < 35 :=
    Nat.lt_succ_of_le ((length_decimalText_le_iff (by decide)).2 (by omega))
  have hbuf : cstr (formatU64 35 (value / 100)).2 = decimalText (value / 100) := by
    rw [formatU64_eq (by omega) hlen]
    exact cstr_append_nul fun c hc => decimalText_ne hc (by decide)
  have hcents : (if value % 100 < 10 then [48] else []) ++ (itoa (value % 100 : ℕ) 10).getD [] =
      [decimalChar (value % 100 / 10), decimalChar (value % 100 % 10), 0] := by
    have hlt : value % 100 < 100 := Nat.mod_lt _ (by decide)
    rw [itoa_eq (by omega), Option.getD_some]
    split_ifs with hten
    · rw [decimalText_of_lt hten, Nat.div_eq_of_lt hten, Nat.mod_eq_of_lt hten]
      rfl
    · rw [decimalText_of_le (by omega), decimalText_of_lt (by omega)]
      rfl
  have hpos := List.length_pos_iff.2 (decimalText_ne_nil (value / 100))
  have hloop := @formatValueLoop_eq (decimalText (value / 100))
    (2 - (decimalText (value / 100)).length % 3) [] (decimalText_ne_nil _) (by omega) (by omega)
  simp only [formatValue, hbuf, hloop, List.nil_append, List.dropLast_concat]
  rw [List.append_assoc _ (ite ..), hcents, valueText]
  simp

/-! ### Reading an amount back -/

/-- The digits of an amount, without the commas and the decimal point. -/
def valueDigits (text : Bytes) : Bytes := text.filter fun c => c ≠ 44 ∧ c ≠ 46

theorem valueDigits_cons (c : UInt8) (text : Bytes) : valueDigits (c :: text) =
    if c ≠ 44 ∧ c ≠ 46 then c :: valueDigits text else valueDigits text := by
  simp only [valueDigits, List.filter_cons, decide_eq_true_eq]

theorem valueDigits_append (a b : Bytes) : valueDigits (a ++ b) = valueDigits a ++ valueDigits b :=
  List.filter_append ..

theorem valueDigits_decimalText (n : ℕ) : valueDigits (decimalText n) = decimalText n := by
  refine List.filter_eq_self.2 fun c hc => ?_
  have hcomma : c ≠ 44 := decimalText_ne hc (by decide)
  have hpoint : c ≠ 46 := decimalText_ne hc (by decide)
  simp [hcomma, hpoint]

/-- The commas are the only characters that grouping adds. -/
theorem valueDigits_groupThousands (text : Bytes) :
    valueDigits (groupThousands text) = valueDigits text := by
  induction text with
  | nil => rfl
  | cons d text ih =>
    have hcomma : valueDigits (44 :: groupThousands text) = valueDigits text := by
      rw [valueDigits_cons, if_neg (by decide), ih]
    rw [groupThousands]
    split_ifs
    · rw [valueDigits_cons, valueDigits_cons d text, hcomma]
    · rw [valueDigits_cons, valueDigits_cons d text, ih]

theorem mem_groupThousands {text : Bytes} {c : UInt8} (h : c ∈ groupThousands text) :
    c = 44 ∨ c ∈ text := by
  induction text with
  | nil => exact absurd h List.not_mem_nil
  | cons d text ih =>
    rw [groupThousands] at h
    split_ifs at h
    · rcases List.mem_cons.1 h with rfl | h
      · exact .inr (List.mem_cons_self ..)
      · rcases List.mem_cons.1 h with rfl | h
        · exact .inl rfl
        · exact (ih h).imp_right (List.mem_cons_of_mem _)
    · rcases List.mem_cons.1 h with rfl | h
      · exact .inr (List.mem_cons_self ..)
      · exact (ih h).imp_right (List.mem_cons_of_mem _)

theorem decimalChar_mem {d : ℕ} (h : d < 10) : decimalChar d ∈ decimalText d :=
  decimalText_of_lt h ▸ List.mem_singleton_self _

theorem valueText_ne_zero (value : ℕ) : ∀ c ∈ valueText value, c ≠ 0 := by
  intro c hc
  have htens : value % 100 / 10 < 10 := by omega
  have hunits : value % 100 % 10 < 10 := Nat.mod_lt _ (by decide)
  rcases List.mem_append.1 hc with hc | hc
  · rcases mem_groupThousands hc with rfl | hc
    · decide
    · exact decimalText_ne hc (by decide)
  · simp only [List.mem_cons, List.not_mem_nil, or_false] at hc
    rcases hc with rfl | rfl | rfl
    · decide
    · exact decimalText_ne (decimalChar_mem htens) (by decide)
    · exact decimalText_ne (decimalChar_mem hunits) (by decide)

theorem valueDigits_decimalChar {d : ℕ} (h : d < 10) (text : Bytes) :
    valueDigits (decimalChar d :: text) = decimalChar d :: valueDigits text := by
  have hmem := decimalChar_mem h
  rw [valueDigits_cons, if_pos ⟨decimalText_ne hmem (by decide), decimalText_ne hmem (by decide)⟩]

/-- The digits of an amount make up the value. -/
theorem decimalValue_valueText (value : ℕ) :
    decimalValue (valueDigits (valueText value)) = value := by
  have htens : value % 100 / 10 < 10 := by omega
  have hunits : value % 100 % 10 < 10 := Nat.mod_lt _ (by decide)
  have hdigits : valueDigits (valueText value) = decimalText (value / 100) ++
      [decimalChar (value % 100 / 10), decimalChar (value % 100 % 10)] := by
    rw [valueText, valueDigits_append, valueDigits_groupThousands, valueDigits_decimalText,
      valueDigits_cons, if_neg (by decide), valueDigits_decimalChar htens,
      valueDigits_decimalChar hunits]
    rfl
  have hleft := decimalValue_decimalText (value / 100)
  rw [decimalValue] at hleft
  rw [hdigits, decimalValue, List.map_append, Numeral.value_append, hleft]
  simp only [List.map_cons, List.map_nil, List.length_cons, List.length_nil, Numeral.value_cons,
    Numeral.value_nil, toNat_decimalChar htens, toNat_decimalChar hunits]
  omega

/-- What `format_value` writes for a value: the amount and a NUL. The value can be read back, and no
other value has the same text. -/
structure ShowsValue (value : ℕ) : Prop where
  written : formatValue value = valueText value ++ [0]
  read_back : decimalValue (valueDigits (cstr (formatValue value))) = value
  injective : ∀ other < 2 ^ 64, formatValue other = formatValue value → other = value

/-- Amounts are printed exactly. -/
theorem showsValue (value : ℕ) (h : value < 2 ^ 64) : ShowsValue value := by
  have hread : ∀ v < 2 ^ 64, decimalValue (valueDigits (cstr (formatValue v))) = v := by
    intro v hv
    rw [formatValue_eq hv, cstr_append_nul (valueText_ne_zero v), decimalValue_valueText]
  refine ⟨formatValue_eq h, hread value h, fun other hother heq => ?_⟩
  rw [← hread other hother, heq, hread value h]

theorem showsValue_sample : ShowsValue 123456789 := showsValue 123456789 (by decide)

end HathorLedger
