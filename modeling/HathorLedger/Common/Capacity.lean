import HathorLedger.Common.Decimal

/-!
# Numbers in arrays of a given size

`format_u64` checks the room in its array after each digit but the last one. A number of one digit
is written without a check, so that it and its NUL overrun an array of one cell.

`format_fpu64` puts a decimal point in front of the last `decimals` digits. With zeros to fill in,
its check leaves out the digits that `strncpy` copies behind them, so that the text can be cut and
left without a NUL. With a digit in front of the point it writes no NUL at all, and the text ends
where the array happens to hold one.

## Main definitions

* `FitsU64`: `format_u64` respects the capacity of its array.
* `Denotes`: a text is a number with some decimals.
* `ExactFpu64`: `format_fpu64` does not report success on a damaged number.

## Main results

* `fitsU64_iff`, `exactFpu64_iff`: when this is the case.
-/

namespace HathorLedger

/-! ### `format_u64` -/

/-- `format_u64` writes inside its array, reports whether the text and the NUL fit, and leaves both
in the array if they do. -/
structure FitsU64 (outLen n : ℕ) : Prop where
  inside : (formatU64 outLen n).2.length ≤ outLen
  returns : (formatU64 outLen n).1 = true ↔ (decimalText n).length + 1 ≤ outLen
  text : (formatU64 outLen n).1 = true → (formatU64 outLen n).2 = decimalText n ++ [0]

/-- The loop stops where the array is full, with digits left. -/
theorem formatU64Loop_short {outLen fuel n : ℕ} {out : Bytes} (hfuel : n < 10 ^ (fuel + 1))
    (hn : n > 9) (hout : out.length ≤ outLen) (hlen : outLen < out.length + (decimalText n).length) :
    ∃ written, formatU64Loop outLen (fuel + 1) out n = (false, written) ∧
      written.length ≤ outLen + 1 := by
  induction fuel generalizing out n with
  | zero => omega
  | succ fuel ih =>
    have hout' : (out ++ [UInt8.ofNat (n % 10 + 48)]).length = out.length + 1 := by simp
    rw [decimalText_of_le hn, List.length_append, List.length_singleton] at hlen
    rw [formatU64Loop, if_pos hn]
    dsimp only
    rw [hout']
    split_ifs with hfull
    · exact ⟨_, rfl, by omega⟩
    · have hmore : n / 10 > 9 := by
        by_contra hlast
        rw [decimalText_of_lt (by omega), List.length_singleton] at hlen
        omega
      exact ih (Nat.div_lt_of_lt_mul (by rw [pow_succ] at hfuel; omega)) hmore (by omega) (by omega)

/-- For every 64-bit number and every array, `format_u64` respects the capacity unless it writes a
number of one digit to an array of one cell. -/
theorem fitsU64_iff {outLen n : ℕ} (hn : n < 2 ^ 64) (hlen : 1 ≤ outLen) :
    FitsU64 outLen n ↔ ¬(outLen = 1 ∧ n ≤ 9) := by
  rcases Nat.lt_or_ge (decimalText n).length outLen with hfits | hshort
  · have hformat := formatU64_eq hn hfits
    refine iff_of_true ⟨?_, ?_, fun _ => by rw [hformat]⟩ ?_
    · rw [hformat, List.length_append, List.length_singleton]
      exact hfits
    · rw [hformat]
      exact iff_of_true rfl hfits
    · rintro ⟨rfl, -⟩
      exact decimalText_ne_nil n (List.eq_nil_of_length_eq_zero (Nat.lt_one_iff.1 hfits))
  rcases Nat.lt_or_ge 9 n with hlarge | hdigit
  · obtain ⟨written, hloop, hwritten⟩ := @formatU64Loop_short (outLen - 1) 19 n []
      (hn.trans (by norm_num)) hlarge (Nat.zero_le _) (by rw [List.length_nil]; omega)
    have hformat : formatU64 outLen n = (false, written) := by
      rw [formatU64, if_neg (by omega), hloop]
    refine iff_of_true ⟨?_, ?_, ?_⟩ (by omega)
    · rw [hformat]
      exact hwritten.trans (by omega)
    · rw [hformat]
      exact iff_of_false Bool.false_ne_true (by omega)
    · rw [hformat]
      exact fun h => absurd h Bool.false_ne_true
  · have hone : (decimalText n).length = 1 := by
      rw [decimalText_of_lt (by omega), List.length_singleton]
    have hformat : formatU64 outLen n = (true, [UInt8.ofNat (n + 48), 0]) := by
      rw [formatU64, if_neg (by omega), formatU64Loop, if_neg (by omega)]
      rfl
    refine iff_of_false (fun h => ?_) (by omega)
    have hinside := h.inside
    rw [hformat] at hinside
    exact absurd hinside (by simp; omega)

theorem fitsU64_sample : FitsU64 3 42 := (fitsU64_iff (by decide) (by decide)).2 (by decide)

/-- A digit and its NUL are written to an array of one cell. -/
theorem not_fitsU64_oneCell : ¬FitsU64 1 7 :=
  fun h => absurd h.inside (by decide)

/-! ### `format_fpu64` -/

/-- The text is a number with the given decimals that stands for `value / 10 ^ decimals`. -/
def Denotes (text : Bytes) (value decimals : ℕ) : Prop :=
  ∃ whole fraction, text = whole ++ 46 :: fraction ∧ whole ≠ [] ∧ fraction.length = decimals ∧
    (∀ c ∈ whole ++ fraction, ∃ d < 10, c = decimalChar d) ∧
    decimalValue whole * 10 ^ decimals + decimalValue fraction = value

/-- `format_fpu64` writes to the first `dstLen` cells only, and when it returns true, these hold a
text that ends with a NUL and denotes the value. -/
structure ExactFpu64 (dst : Bytes) (dstLen value decimals : ℕ) : Prop where
  length_eq : (formatFpu64 dst dstLen value decimals).2.length = dst.length
  inside : (formatFpu64 dst dstLen value decimals).2.drop dstLen = dst.drop dstLen
  terminated : (formatFpu64 dst dstLen value decimals).1 = true →
    (cstr (formatFpu64 dst dstLen value decimals).2).length < dstLen
  denotes : (formatFpu64 dst dstLen value decimals).1 = true →
    Denotes (cstr (formatFpu64 dst dstLen value decimals).2) value decimals

/-- The array is refused, or it has room for the whole text and the NUL behind it comes from the
copy, or from the old contents where the copy writes none. -/
def FpuRoom (dst : Bytes) (dstLen value decimals : ℕ) : Prop :=
  let digits := (decimalText value).length
  if digits ≤ decimals then dstLen ≤ 2 + decimals - digits ∨ decimals + 3 ≤ dstLen
  else dstLen ≤ digits + 1 + decimals ∨ byteAt dst (digits + 1) = 0

section Fpu

variable {dst : Bytes} {dstLen value decimals : ℕ}

/-- The text of a number with zeros in front of its digits. -/
theorem denotes_padded (hdigits : (decimalText value).length ≤ decimals) :
    Denotes (48 :: 46 :: List.replicate (decimals - (decimalText value).length) 48 ++
      decimalText value) value decimals := by
  refine ⟨[48], List.replicate (decimals - (decimalText value).length) 48 ++ decimalText value,
    rfl, by simp, ?_, ?_, ?_⟩
  · rw [List.length_append, List.length_replicate]
    omega
  · intro c hc
    rcases List.mem_append.1 hc with hc | hc
    · exact ⟨0, by decide, List.mem_singleton.1 hc⟩
    · rcases List.mem_append.1 hc with hc | hc
      · exact ⟨0, by decide, List.eq_of_mem_replicate hc⟩
      · exact mem_decimalText hc
  · have hzeros : ∀ d ∈ (List.replicate (decimals - (decimalText value).length) (48 : UInt8)).map
        (fun c => c.toNat - 48), d = 0 := by
      intro d hd
      rw [List.map_replicate] at hd
      exact List.eq_of_mem_replicate hd
    have hvalue := decimalValue_decimalText value
    rw [decimalValue] at hvalue
    rw [decimalValue, decimalValue, List.map_append, Numeral.value_append_of_zeros hzeros, hvalue]
    simp

/-- The text of a number with the point between its digits. -/
theorem denotes_split (hdigits : decimals < (decimalText value).length) :
    Denotes ((decimalText value).take ((decimalText value).length - decimals) ++
      46 :: (decimalText value).drop ((decimalText value).length - decimals)) value decimals := by
  have hlength : ((decimalText value).drop ((decimalText value).length - decimals)).length =
      decimals := by
    rw [List.length_drop]
    omega
  refine ⟨_, _, rfl, ?_, hlength, ?_, ?_⟩
  · rw [ne_eq, List.take_eq_nil_iff, not_or]
    exact ⟨by omega, decimalText_ne_nil value⟩
  · rw [List.take_append_drop]
    exact fun c hc => mem_decimalText hc
  · have hvalue := decimalValue_decimalText value
    rw [decimalValue, ← List.take_append_drop ((decimalText value).length - decimals)
      (decimalText value), List.map_append, Numeral.value_append, List.length_map] at hvalue
    rw [hlength] at hvalue
    exact hvalue

/-- A text denotes a number in one way: it has one point only. -/
theorem Denotes.length_fraction {text whole fraction : Bytes} (h : Denotes text value decimals)
    (htext : text = whole ++ 46 :: fraction) : fraction.length = decimals := by
  obtain ⟨whole', fraction', htext', -, hlength, hdigits, -⟩ := h
  have hpoint : (46 : UInt8) ∉ whole' ++ fraction' := by
    intro hc
    obtain ⟨d, hd, heq⟩ := hdigits _ hc
    have := congrArg UInt8.toNat heq
    rw [toNat_decimalChar hd] at this
    simp at this
  rw [List.mem_append, not_or] at hpoint
  have hsplit := (List.append_cons_inj_of_notMem hpoint.1 hpoint.2).1 (htext'.symm.trans htext)
  rw [← hsplit.2.2, hlength]

/-- A write right behind a prefix. -/
theorem memmove_append (front rest src : Bytes) {offset : ℕ} (h : offset = front.length) :
    memmove (front ++ rest) offset src = front ++ src ++ rest.drop src.length := by
  subst h
  rw [memmove, List.take_left, List.drop_append, List.drop_of_length_le (Nat.le_add_right _ _),
    List.nil_append, Nat.add_sub_cancel_left]

theorem decimalText_ne_zero (n : ℕ) : ∀ c ∈ decimalText n, c ≠ 0 :=
  fun _ hc => decimalText_ne hc (by decide)

/-- The buffer of `format_fpu64` behind the call of `format_u64`: the digits, and NULs. -/
theorem fpuBuffer_eq (hvalue : value < 2 ^ 64) :
    (formatU64 21 value).1 = true ∧ ∃ n, memmove (List.replicate 21 0) 0 (formatU64 21 value).2 =
      decimalText value ++ 0 :: List.replicate n 0 := by
  have hlen : (decimalText value).length < 21 :=
    Nat.lt_succ_of_le ((length_decimalText_le_iff (by decide)).2 (hvalue.trans (by norm_num)))
  rw [formatU64_eq hvalue hlen]
  refine ⟨rfl, 21 - ((decimalText value).length + 1), ?_⟩
  rw [memmove_zero, List.drop_replicate, List.append_assoc, List.length_append,
    List.length_singleton]
  rfl

/-- `format_fpu64` with zeros in front of the digits. -/
theorem formatFpu64_padded (hvalue : value < 2 ^ 64)
    (hdigits : (decimalText value).length ≤ decimals)
    (hroom : 2 + decimals - (decimalText value).length < dstLen) :
    formatFpu64 dst dstLen value decimals =
      (true, 48 :: 46 :: List.replicate (decimals - (decimalText value).length) 48 ++
        ((decimalText value).take (dstLen - (2 + decimals - (decimalText value).length)) ++
          List.replicate (dstLen - (2 + decimals)) 0) ++ dst.drop dstLen) := by
  obtain ⟨hcomplete, n, hbuffer⟩ := fpuBuffer_eq hvalue
  have hcstr : cstr (decimalText value ++ 0 :: List.replicate n 0) = decimalText value :=
    cstr_append (decimalText_ne_zero value) _
  simp only [formatFpu64, hcomplete, hbuffer, hcstr, Bool.not_true, Bool.false_eq_true, if_false]
  rw [if_pos hdigits, if_neg (by omega), strncpy, hcstr, memmove_zero]
  have hfront : (48 :: 46 :: List.replicate (decimals - (decimalText value).length) (48 : UInt8)).length =
      2 + decimals - (decimalText value).length := by
    simp only [List.length_cons, List.length_replicate]
    omega
  have hzeros : dstLen - (2 + decimals - (decimalText value).length) - (decimalText value).length =
      dstLen - (2 + decimals) := by omega
  rw [memmove_append _ _ _ hfront.symm, hzeros, List.drop_drop]
  congr 3
  rw [hfront, List.length_append, List.length_take, List.length_replicate]
  omega

/-- `format_fpu64` with the point between the digits. -/
theorem formatFpu64_split (hvalue : value < 2 ^ 64)
    (hdigits : decimals < (decimalText value).length) (hdst : dstLen ≤ dst.length)
    (hroom : (decimalText value).length + 1 + decimals < dstLen) :
    formatFpu64 dst dstLen value decimals =
      (true, (decimalText value).take ((decimalText value).length - decimals) ++
        46 :: (decimalText value).drop ((decimalText value).length - decimals) ++
        dst.drop ((decimalText value).length + 1)) := by
  obtain ⟨hcomplete, n, hbuffer⟩ := fpuBuffer_eq hvalue
  have hcstr : cstr (decimalText value ++ 0 :: List.replicate n 0) = decimalText value :=
    cstr_append (decimalText_ne_zero value) _
  have hshift : (decimalText value).length - decimals ≤ (decimalText value).length := Nat.sub_le _ _
  have hwhole : ((decimalText value).take ((decimalText value).length - decimals)).length =
      (decimalText value).length - decimals := List.length_take_of_le hshift
  have hfraction : ((decimalText value).drop ((decimalText value).length - decimals)).length =
      decimals := by
    rw [List.length_drop]
    omega
  have hrest : cstr ((decimalText value).drop ((decimalText value).length - decimals) ++
      0 :: List.replicate n 0) =
        (decimalText value).drop ((decimalText value).length - decimals) :=
    cstr_append (fun c hc => decimalText_ne_zero value c (List.mem_of_mem_drop hc)) _
  simp only [formatFpu64, hcomplete, hbuffer, hcstr, Bool.not_true, Bool.false_eq_true, if_false]
  rw [if_neg (by omega), if_neg (by omega), List.take_append_of_le_length hshift,
    List.drop_append_of_le_length hshift, strncpy, hrest, hfraction, Nat.sub_self,
    List.take_of_length_le hfraction.le, memmove_zero, hwhole]
  have hset : ((decimalText value).take ((decimalText value).length - decimals) ++
      dst.drop ((decimalText value).length - decimals)).set ((decimalText value).length - decimals)
        46 = (decimalText value).take ((decimalText value).length - decimals) ++ [46] ++
          dst.drop ((decimalText value).length - decimals + 1) := by
    rw [List.set_append_right _ _ hwhole.le, hwhole, Nat.sub_self,
      List.drop_eq_getElem_cons (by omega), List.set_cons_zero]
    simp
  have hfront : ((decimalText value).take ((decimalText value).length - decimals) ++ [46]).length =
      (decimalText value).length - decimals + 1 := by
    rw [List.length_append, hwhole, List.length_singleton]
  have hend : (decimalText value).length - decimals + 1 + decimals =
      (decimalText value).length + 1 := by omega
  rw [hset, List.replicate_zero, List.append_nil, memmove_append _ _ _ hfront.symm, hfraction,
    List.drop_drop, hend]
  simp

theorem exactFpu64_of_refused (h : formatFpu64 dst dstLen value decimals = (false, dst)) :
    ExactFpu64 dst dstLen value decimals := by
  refine ⟨by rw [h], by rw [h], ?_, ?_⟩
  · rw [h]
    exact fun hfalse => absurd hfalse Bool.false_ne_true
  · rw [h]
    exact fun hfalse => absurd hfalse Bool.false_ne_true

/-- When `format_fpu64` refuses its array. -/
theorem formatFpu64_refused (hvalue : value < 2 ^ 64)
    (hroom : if (decimalText value).length ≤ decimals
      then dstLen ≤ 2 + decimals - (decimalText value).length
      else dstLen ≤ (decimalText value).length + 1 + decimals) :
    formatFpu64 dst dstLen value decimals = (false, dst) := by
  obtain ⟨hcomplete, n, hbuffer⟩ := fpuBuffer_eq hvalue
  have hcstr : cstr (decimalText value ++ 0 :: List.replicate n 0) = decimalText value :=
    cstr_append (decimalText_ne_zero value) _
  simp only [formatFpu64, hcomplete, hbuffer, hcstr, Bool.not_true, Bool.false_eq_true, if_false]
  split_ifs at hroom ⊢ with hdigits
  · rfl
  · rfl

/-- A text that is cut has no NUL, and one that is not ends with the NULs of `strncpy`. -/
theorem exactFpu64_padded_iff (hvalue : value < 2 ^ 64) (hdst : dstLen ≤ dst.length)
    (hdigits : (decimalText value).length ≤ decimals)
    (hroom : 2 + decimals - (decimalText value).length < dstLen) :
    ExactFpu64 dst dstLen value decimals ↔ decimals + 3 ≤ dstLen := by
  have hformat := @formatFpu64_padded dst dstLen value decimals hvalue hdigits hroom
  -- the zeros, and the digits as far as there is room for them
  obtain ⟨front, hfront⟩ : ∃ front : Bytes,
      front = 48 :: 46 :: List.replicate (decimals - (decimalText value).length) 48 := ⟨_, rfl⟩
  have hlength : front.length = 2 + decimals - (decimalText value).length := by
    rw [hfront]
    simp only [List.length_cons, List.length_replicate]
    omega
  have hne : ∀ c ∈ front, c ≠ 0 := by
    rw [hfront]
    intro c hc
    rcases List.mem_cons.1 hc with rfl | hc
    · decide
    · rcases List.mem_cons.1 hc with rfl | hc
      · decide
      · rw [List.eq_of_mem_replicate hc]
        decide
  rw [← hfront] at hformat
  constructor
  · intro hexact
    by_contra hshort
    have hcut : dstLen - (2 + decimals) = 0 := by omega
    have hcells : ∀ c ∈ front ++ (decimalText value).take (dstLen - front.length), c ≠ 0 := by
      intro c hc
      rcases List.mem_append.1 hc with hc | hc
      · exact hne c hc
      · exact decimalText_ne_zero value c (List.mem_of_mem_take hc)
    have hterminated := hexact.terminated (by rw [hformat])
    rw [hformat, ← hlength, hcut, List.replicate_zero, List.append_nil, cstr_append_of_ne hcells,
      List.length_append, List.length_append, List.length_take] at hterminated
    omega
  · intro hfits
    obtain ⟨m, hm⟩ : ∃ m, dstLen - (2 + decimals) = m + 1 := ⟨_, (Nat.sub_add_cancel (by omega)).symm⟩
    have hall : (decimalText value).take (dstLen - (2 + decimals - (decimalText value).length)) =
        decimalText value := List.take_of_length_le (by omega)
    rw [hall, hm, List.replicate_succ] at hformat
    have hcstr : cstr (formatFpu64 dst dstLen value decimals).2 = front ++ decimalText value := by
      have hcells : ∀ c ∈ front ++ decimalText value, c ≠ 0 := fun c hc =>
        (List.mem_append.1 hc).elim (hne c) (decimalText_ne_zero value c)
      rw [hformat, ← List.append_assoc, List.append_assoc]
      exact cstr_append hcells _
    have hwritten : (front ++ (decimalText value ++ 0 :: List.replicate m (0 : UInt8))).length =
        dstLen := by
      simp only [List.length_append, List.length_cons, List.length_replicate, hlength]
      omega
    refine ⟨?_, ?_, fun _ => ?_, fun _ => ?_⟩
    · rw [hformat, List.length_append, hwritten, List.length_drop]
      omega
    · rw [hformat, List.drop_left' hwritten]
    · rw [hcstr, List.length_append, hlength]
      omega
    · rw [hcstr, hfront]
      exact denotes_padded hdigits

/-- A number with its point between the digits ends where the array holds a NUL behind it. -/
theorem exactFpu64_split_iff (hvalue : value < 2 ^ 64) (hdst : dstLen ≤ dst.length)
    (hdigits : decimals < (decimalText value).length)
    (hroom : (decimalText value).length + 1 + decimals < dstLen) :
    ExactFpu64 dst dstLen value decimals ↔ byteAt dst ((decimalText value).length + 1) = 0 := by
  have hformat := formatFpu64_split hvalue hdigits hdst hroom
  have hcells : ∀ c ∈ (decimalText value).take ((decimalText value).length - decimals) ++
      46 :: (decimalText value).drop ((decimalText value).length - decimals), c ≠ 0 := by
    intro c hc
    rcases List.mem_append.1 hc with hc | hc
    · exact decimalText_ne_zero value c (List.mem_of_mem_take hc)
    · rcases List.mem_cons.1 hc with rfl | hc
      · decide
      · exact decimalText_ne_zero value c (List.mem_of_mem_drop hc)
  have hlength : ((decimalText value).take ((decimalText value).length - decimals) ++
      46 :: (decimalText value).drop ((decimalText value).length - decimals)).length =
        (decimalText value).length + 1 := by
    rw [List.length_append, List.length_cons, List.length_take, List.length_drop]
    omega
  obtain ⟨x, rest, hrest⟩ : ∃ x rest, dst.drop ((decimalText value).length + 1) = x :: rest :=
    List.exists_cons_of_length_pos (by rw [List.length_drop]; omega)
  have hx : byteAt dst ((decimalText value).length + 1) = x.toNat := by
    rw [← Nat.add_zero ((decimalText value).length + 1), ← byteAt_drop, hrest]
    rfl
  rw [hx]
  constructor
  · intro hexact
    by_contra hne
    have hx0 : x ≠ 0 := fun h => hne (h ▸ rfl)
    have hdenotes := hexact.denotes (by rw [hformat])
    have hcstr : cstr (formatFpu64 dst dstLen value decimals).2 =
        (decimalText value).take ((decimalText value).length - decimals) ++
          46 :: ((decimalText value).drop ((decimalText value).length - decimals) ++
            x :: cstr rest) := by
      rw [hformat, hrest, cstr_append_of_ne hcells]
      simp [cstr, hx0]
    have hfraction := hdenotes.length_fraction hcstr
    rw [List.length_append, List.length_drop, List.length_cons] at hfraction
    omega
  · intro hzero
    obtain rfl : x = 0 := UInt8.toNat_inj.1 hzero
    have hcstr : cstr (formatFpu64 dst dstLen value decimals).2 =
        (decimalText value).take ((decimalText value).length - decimals) ++
          46 :: (decimalText value).drop ((decimalText value).length - decimals) := by
      rw [hformat, hrest]
      exact cstr_append hcells _
    refine ⟨?_, ?_, fun _ => ?_, fun _ => ?_⟩
    · rw [hformat, List.length_append, hlength, List.length_drop]
      omega
    · rw [hformat, List.drop_append, hlength, List.drop_of_length_le (by omega), List.nil_append,
        List.drop_drop]
      congr 1
      omega
    · rw [hcstr, hlength]
      omega
    · rw [hcstr]
      exact denotes_split hdigits

/-- For every 64-bit number, every number of decimals and every array, `format_fpu64` is exact
unless it is short of room for the last digits and the NUL, or finds no NUL behind a number with its
point between the digits. -/
theorem exactFpu64_iff (hvalue : value < 2 ^ 64) (hdst : dstLen ≤ dst.length) :
    ExactFpu64 dst dstLen value decimals ↔ FpuRoom dst dstLen value decimals := by
  unfold FpuRoom
  dsimp only
  split_ifs with hdigits
  · by_cases hroom : dstLen ≤ 2 + decimals - (decimalText value).length
    · exact iff_of_true (exactFpu64_of_refused (formatFpu64_refused hvalue (by
        rwa [if_pos hdigits]))) (.inl hroom)
    · rw [exactFpu64_padded_iff hvalue hdst hdigits (not_le.1 hroom), or_iff_right hroom]
  · by_cases hroom : dstLen ≤ (decimalText value).length + 1 + decimals
    · exact iff_of_true (exactFpu64_of_refused (formatFpu64_refused hvalue (by
        rwa [if_neg hdigits]))) (.inl hroom)
    · rw [exactFpu64_split_iff hvalue hdst (not_le.1 hdigits) (not_le.1 hroom),
        or_iff_right hroom]

end Fpu

/-- 0.24964823 in a zeroed array, as in the unit test of `format_fpu64`. -/
theorem exactFpu64_sample : ExactFpu64 (List.replicate 22 0) 22 24964823 8 :=
  (exactFpu64_iff (by decide) (by decide)).2 (.inr (by decide))

/-- 0.5 in three cells: the text fills them, and the NUL is missing. -/
theorem not_exactFpu64_short : ¬ExactFpu64 (List.replicate 3 0) 3 5 1 :=
  fun h => absurd (h.terminated (by decide)) (by decide)

end HathorLedger
