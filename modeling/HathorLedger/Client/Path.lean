import HathorLedger.Common.PathText

/-!
# Paths in the client

The client of the test suite takes BIP32 paths as text, in the notation that the device uses for
them, and sends their components as big-endian bytes.

The calls of `int` follow the documented syntax of integer literals in base 10: blanks around them,
a sign, and decimal digits, also those of other scripts, with single underscores between them. The
limit of 4300 digits that recent versions of CPython set by default is left out.

## Main definitions

* `toBytes`, `toBytesSigned`: `int.to_bytes` with `byteorder="big"`.
* `pyInt`: `int` on a text.
* `bip32PathFromString`: the function of `app_client/utils.py`.

## Main results

* `bip32PathFromString_pathText`: the client reads the notation of the device.
* `bip32PathFromString_shown_iff`: when it reads the path that the device has shown.
-/

namespace HathorLedger.Client

/-! ### Integers -/

/-- `n.to_bytes(length, byteorder="big")`, or `none` where it raises `OverflowError`. -/
def toBytes (n : ℤ) (length : ℕ) : Option Bytes :=
  if 0 ≤ n ∧ n < 256 ^ length then some (beBytes length n.toNat) else none

/-- `n.to_bytes(length, byteorder="big", signed=True)`: the bytes of the two's complement. -/
def toBytesSigned (n : ℤ) (length : ℕ) : Option Bytes :=
  if -(256 ^ length / 2) ≤ n ∧ n < 256 ^ length / 2 then
    some (beBytes length (n % 256 ^ length).toNat)
  else none

theorem toBytes_natCast {n length : ℕ} (h : n < 256 ^ length) :
    toBytes n length = some (beBytes length n) := by
  rw [toBytes, if_pos ⟨Int.natCast_nonneg n, by exact_mod_cast h⟩, Int.toNat_natCast]

theorem toBytes_eq_some_iff {n : ℤ} {length : ℕ} {field : Bytes} :
    toBytes n length = some field ↔ field.length = length ∧ n = beValue field := by
  rw [toBytes]
  constructor
  · intro h
    split_ifs at h with hn
    cases h
    have hlt : n.toNat < 256 ^ length := by
      have := hn.2
      zify
      rw [Int.toNat_of_nonneg hn.1]
      exact this
    rw [length_beBytes, beValue_beBytes, Nat.mod_eq_of_lt hlt, Int.toNat_of_nonneg hn.1]
    exact ⟨rfl, rfl⟩
  · rintro ⟨rfl, rfl⟩
    rw [if_pos ⟨Int.natCast_nonneg _, by exact_mod_cast beValue_lt field⟩, Int.toNat_natCast,
      beBytes_beValue]

theorem toBytes_one_eq_some_iff {n : ℕ} {field : Bytes} :
    toBytes (n : ℤ) 1 = some field ↔ n < 256 ∧ field = [UInt8.ofNat n] := by
  rw [toBytes_eq_some_iff]
  constructor
  · rintro ⟨hlen, hn⟩
    obtain ⟨b, rfl⟩ := List.length_eq_one_iff.1 hlen
    have hb : n = b.toNat := by simpa [beValue] using hn
    exact ⟨hb ▸ b.toNat_lt, by rw [hb, UInt8.ofNat_toNat]⟩
  · rintro ⟨hn, rfl⟩
    exact ⟨rfl, by simp [beValue, Nat.mod_eq_of_lt hn]⟩

/-- The characters that `int` skips around a number. -/
def isSpace (c : Char) : Bool :=
  c.toNat ∈ [0x20, 0x85, 0xA0, 0x1680, 0x2028, 0x2029, 0x202F, 0x205F, 0x3000] ||
    (0x09 ≤ c.toNat && c.toNat ≤ 0x0D) || (0x2000 ≤ c.toNat && c.toNat ≤ 0x200A)

/-- A text without the blanks around it. -/
def strip (text : List Char) : List Char :=
  ((text.dropWhile isSpace).reverse.dropWhile isSpace).reverse

/-- The digits zero of all scripts. The other digits of a script stand behind its zero. -/
def decimalZeros : List ℕ :=
  [0x30, 0x660, 0x6F0, 0x7C0, 0x966, 0x9E6, 0xA66, 0xAE6, 0xB66, 0xBE6, 0xC66, 0xCE6, 0xD66, 0xDE6,
   0xE50, 0xED0, 0xF20, 0x1040, 0x1090, 0x17E0, 0x1810, 0x1946, 0x19D0, 0x1A80, 0x1A90, 0x1B50,
   0x1BB0, 0x1C40, 0x1C50, 0xA620, 0xA8D0, 0xA900, 0xA9D0, 0xA9F0, 0xAA50, 0xABF0, 0xFF10, 0x104A0,
   0x10D30, 0x11066, 0x110F0, 0x11136, 0x111D0, 0x112F0, 0x11450, 0x114D0, 0x11650, 0x116C0,
   0x11730, 0x118E0, 0x11950, 0x11C50, 0x11D50, 0x11DA0, 0x16A60, 0x16AC0, 0x16B50, 0x1D7CE,
   0x1D7D8, 0x1D7E2, 0x1D7EC, 0x1D7F6, 0x1E140, 0x1E2F0, 0x1E950, 0x1FBF0]

/-- The value of a decimal digit. -/
def digitValue (c : Char) : Option ℕ :=
  (decimalZeros.find? fun low => low ≤ c.toNat ∧ c.toNat < low + 10).map (c.toNat - ·)

/-- The number that goes on with these digits. An underscore stands between two digits. -/
def pyDigits : ℕ → Bool → List Char → Option ℕ
  | n, behind, [] => if behind then some n else none
  | n, behind, c :: text =>
    match digitValue c with
    | some d => pyDigits (10 * n + d) true text
    | none => if c = '_' ∧ behind then pyDigits n false text else none

/-- `int(text)`, or `none` where it raises `ValueError`. -/
def pyInt (text : List Char) : Option ℤ :=
  match strip text with
  | '+' :: digits => (pyDigits 0 false digits).map fun n => (n : ℤ)
  | '-' :: digits => (pyDigits 0 false digits).map fun n => -(n : ℤ)
  | digits => (pyDigits 0 false digits).map fun n => (n : ℤ)

/-! ### Paths -/

/-- The quote behind a hardened component. -/
def quote : Char := Char.ofNat 0x27

/-- A component of a path. The top bit of a number with a quote is set; the top bit of a negative
number cannot be, and such a number has no bytes. -/
def componentFromString (p : List Char) : Option Bytes :=
  if quote ∉ p then do toBytes (← pyInt p) 4
  else
    match pyInt p.dropLast with
    | some (.ofNat n) => toBytes (0x80000000 ||| n : ℕ) 4
    | _ => none

/-- `bip32_path_from_string`, or `none` where it raises an exception. -/
def bip32PathFromString (path : List Char) : Option (List Bytes) :=
  let splittedPath := path.splitOn '/'
  let splittedPath :=
    if splittedPath.head? = some ['m'] then splittedPath.tail else splittedPath
  splittedPath.mapM componentFromString

/-! ### The text of the device -/

/-- The characters of a text in ASCII. -/
def asciiText (text : Bytes) : List Char := text.map fun c => Char.ofNat c.toNat

theorem asciiText_append (text more : Bytes) :
    asciiText (text ++ more) = asciiText text ++ asciiText more := List.map_append

/-- The character of a decimal digit. -/
def digitChar (d : ℕ) : Char := Char.ofNat (d + 48)

theorem digitValue_digitChar {d : ℕ} (h : d < 10) : digitValue (digitChar d) = some d := by
  interval_cases d <;> rfl

theorem digitChar_ne {d : ℕ} (h : d < 10) {c : Char} (hc : c ∈ ['+', '-', '/', quote, 'm']) :
    digitChar d ≠ c := by
  rintro rfl
  interval_cases d <;> revert hc <;> decide

theorem isSpace_digitChar {d : ℕ} (h : d < 10) : isSpace (digitChar d) = false := by
  interval_cases d <;> rfl

/-- The digits of a number are read as the number. -/
theorem pyDigits_digitChar {ds : List ℕ} (hds : ∀ d ∈ ds, d < 10) (n : ℕ) {behind : Bool}
    (h : ds ≠ [] ∨ behind = true) :
    pyDigits n behind (ds.map digitChar) = some (ds.foldl (fun n d => 10 * n + d) n) := by
  induction ds generalizing n behind with
  | nil => rw [List.map_nil, pyDigits, if_pos (h.resolve_left fun h => h rfl), List.foldl_nil]
  | cons d ds ih =>
    have hd := hds d List.mem_cons_self
    rw [List.map_cons, pyDigits, digitValue_digitChar hd]
    exact ih (fun d' hd' => hds d' (List.mem_cons_of_mem d hd')) _ (.inr rfl)

theorem strip_digitChar {ds : List ℕ} (hds : ∀ d ∈ ds, d < 10) :
    strip (ds.map digitChar) = ds.map digitChar := by
  have hkeep : ∀ l : List ℕ, (∀ d ∈ l, d < 10) →
      (l.map digitChar).dropWhile isSpace = l.map digitChar := by
    intro l hl
    cases l with
    | nil => rfl
    | cons d l =>
      rw [List.map_cons, List.dropWhile_cons_of_neg]
      simp [isSpace_digitChar (hl d List.mem_cons_self)]
  rw [strip, hkeep ds hds, ← List.map_reverse,
    hkeep ds.reverse fun d hd => hds d (List.mem_reverse.1 hd), List.map_reverse,
    List.reverse_reverse]

theorem pyInt_digitChar {ds : List ℕ} (hds : ∀ d ∈ ds, d < 10) (hne : ds ≠ []) :
    pyInt (ds.map digitChar) = some (Numeral.value 10 ds : ℤ) := by
  have hdigits : pyDigits 0 false (ds.map digitChar) = some (Numeral.value 10 ds) :=
    pyDigits_digitChar hds 0 (.inl hne)
  obtain ⟨d, ds, rfl⟩ := List.exists_cons_of_ne_nil hne
  have hd := hds d List.mem_cons_self
  have hplus : digitChar d ≠ '+' := digitChar_ne hd (by decide)
  have hminus : digitChar d ≠ '-' := digitChar_ne hd (by decide)
  rw [pyInt, strip_digitChar hds]
  rw [List.map_cons] at hdigits ⊢
  split
  · rename_i h
    exact absurd (List.cons.inj h).1 hplus
  · rename_i h
    exact absurd (List.cons.inj h).1 hminus
  · rw [hdigits]
    rfl

theorem asciiText_decimalText (n : ℕ) :
    asciiText (decimalText n) = (numeralDigits 10 n).map digitChar := by
  rw [decimalText_eq, asciiText, List.map_map]
  refine List.map_congr_left fun d hd => ?_
  rw [Function.comp_apply, toNat_decimalChar (lt_of_mem_numeralDigits (by decide) hd), digitChar]

theorem value_numeralDigits (n : ℕ) : Numeral.value 10 (numeralDigits 10 n) = n := by
  rw [numeralDigits]
  split_ifs with h
  · rw [h, Numeral.value_singleton]
  · exact Numeral.value_digits

theorem pyInt_decimalText (n : ℕ) : pyInt (asciiText (decimalText n)) = some (n : ℤ) := by
  have hne : numeralDigits 10 n ≠ [] := by
    intro h
    exact decimalText_ne_nil n (by rw [decimalText_eq, h]; rfl)
  rw [asciiText_decimalText, pyInt_digitChar (fun d hd => lt_of_mem_numeralDigits (by decide) hd) hne,
    value_numeralDigits]

/-- Signs, quotes and slashes are no digits. -/
theorem not_mem_asciiText_decimalText (n : ℕ) {c : Char} (hc : c ∈ ['+', '-', '/', quote, 'm']) :
    c ∉ asciiText (decimalText n) := by
  rw [asciiText_decimalText]
  intro h
  obtain ⟨d, hd, rfl⟩ := List.mem_map.1 h
  exact digitChar_ne (lt_of_mem_numeralDigits (by decide) hd) hc rfl

/-- The client reads the component that the device shows. -/
theorem componentFromString_componentText {c : ℕ} (hc : c < 2 ^ 32) :
    componentFromString (asciiText (componentText c)) = some (beBytes 4 c) := by
  have hquote := not_mem_asciiText_decimalText (c % 2 ^ 31) (c := quote) (by decide)
  by_cases htop : c / 2 ^ 31 % 2 ≠ 0
  · have htext : asciiText (componentText c) = asciiText (decimalText (c % 2 ^ 31)) ++ [quote] := by
      rw [componentText, if_pos htop, asciiText_append]
      rfl
    have hvalue : 0x80000000 ||| c % 2 ^ 31 = c := by
      rw [show (0x80000000 : ℕ) = 2 ^ 31 * 1 from rfl,
        ← Nat.two_pow_add_eq_or_of_lt (Nat.mod_lt c (by decide))]
      omega
    rw [componentFromString, htext, if_neg (by simp), List.dropLast_concat, pyInt_decimalText]
    change toBytes ((0x80000000 ||| c % 2 ^ 31 : ℕ) : ℤ) 4 = _
    rw [hvalue]
    exact toBytes_natCast (hc.trans_eq (by norm_num))
  · have htext : asciiText (componentText c) = asciiText (decimalText c) := by
      rw [componentText, if_neg htop, List.append_nil, Nat.mod_eq_of_lt (by omega)]
    rw [Nat.mod_eq_of_lt (by omega)] at hquote
    rw [componentFromString, htext, if_pos hquote, pyInt_decimalText, Option.bind_eq_bind,
      Option.bind_some]
    exact toBytes_natCast (hc.trans_eq (by norm_num))

theorem asciiText_pathText (path : List ℕ) :
    asciiText (pathText path) =
      ['/'].intercalate (path.map fun c => asciiText (componentText c)) := by
  induction path with
  | nil => rfl
  | cons c path ih =>
    cases path with
    | nil => simp [pathText]
    | cons d path =>
      rw [pathText, List.map_cons, List.map_cons, List.intercalate_cons_cons, ← List.map_cons,
        ← pathText, asciiText_append, asciiText_append, ih]
      simp only [List.map_cons, List.intercalate_cons_cons]
      rfl

/-- The text of a component is no slash and no `m`. -/
theorem not_mem_asciiText_componentText (c : ℕ) {x : Char} (hx : x ∈ ['/', 'm']) :
    x ∉ asciiText (componentText c) := by
  have hx' : x ∈ ['+', '-', '/', quote, 'm'] := by
    revert hx
    simp only [List.mem_cons, List.not_mem_nil, or_false]
    rintro (rfl | rfl) <;> simp
  rw [componentText, asciiText_append, List.mem_append, not_or]
  refine ⟨not_mem_asciiText_decimalText _ hx', ?_⟩
  split_ifs
  · intro h
    rcases List.mem_singleton.1 h with rfl
    revert hx
    decide
  · exact List.not_mem_nil

/-- The client reads a path that is written as on the screen of the device: it sends the big-endian
bytes of its components. -/
theorem bip32PathFromString_pathText {path : List ℕ} (hne : path ≠ [])
    (hpath : ∀ c ∈ path, c < 2 ^ 32) :
    bip32PathFromString (asciiText (pathText path)) = some (path.map (beBytes 4)) := by
  have hsplit : (asciiText (pathText path)).splitOn '/' =
      path.map fun c => asciiText (componentText c) := by
    rw [asciiText_pathText, List.splitOn_intercalate]
    · intro l hl
      obtain ⟨c, -, rfl⟩ := List.mem_map.1 hl
      exact not_mem_asciiText_componentText c (by decide)
    · simpa using hne
  have hhead : (path.map fun c => asciiText (componentText c)).head? ≠ some ['m'] := by
    obtain ⟨c, path, rfl⟩ := List.exists_cons_of_ne_nil hne
    intro h
    have hm := @not_mem_asciiText_componentText c 'm' (by decide)
    have hm' : asciiText (componentText c) = ['m'] := Option.some.inj h
    rw [hm'] at hm
    exact hm List.mem_cons_self
  rw [bip32PathFromString, hsplit]
  simp only [hhead, if_false]
  clear hsplit hhead hne
  induction path with
  | nil => rfl
  | cons c path ih =>
    rw [List.map_cons, List.mapM_cons, componentFromString_componentText (hpath c List.mem_cons_self),
      ih fun c hc => hpath c (List.mem_cons_of_mem _ hc)]
    rfl

/-- From a text that is cut within the digits of the last number, the client reads a path with a
smaller one. -/
theorem bip32PathFromString_take {front : List ℕ} {last outLen : ℕ}
    (hpath : ∀ c ∈ front ++ [last], c < 2 ^ 32) (hquote : last / 2 ^ 31 % 2 = 0)
    (hroom : (slashedText front).length + 1 < outLen)
    (hcut : outLen ≤ (pathText (front ++ [last])).length) :
    ∃ m < last, bip32PathFromString (asciiText ((pathText (front ++ [last])).take (outLen - 1))) =
      some ((front ++ [m]).map (beBytes 4)) := by
  have hlast := hpath last (by simp)
  have hcomponent {c : ℕ} (hc : c ≤ last) : componentText c = decimalText c := by
    rw [componentText, if_neg (by omega), List.append_nil, Nat.mod_eq_of_lt (by omega)]
  rw [pathText_append_singleton, hcomponent le_rfl] at hcut ⊢
  rw [List.length_append] at hcut
  obtain ⟨m, hm, htake⟩ := @exists_take_decimalText last (outLen - 1 - (slashedText front).length)
    (by omega) (by omega)
  refine ⟨m, hm, ?_⟩
  rw [List.take_append, List.take_of_length_le (by omega), htake, ← hcomponent hm.le,
    ← pathText_append_singleton]
  refine bip32PathFromString_pathText (by simp) fun c hc => ?_
  rcases List.mem_append.1 hc with hc | hc
  · exact hpath c (List.mem_append_left _ hc)
  · rw [List.mem_singleton.1 hc]
    exact hm.trans hlast

/-- **Reading a path off the screen.** Where the device says that it has written a path, the client
reads the same path from the text, unless the cells end within the digits of the last number: then it
reads a path with a smaller last number. -/
theorem bip32PathFromString_shown_iff {path : List ℕ} {out out' : Bytes} {outLen : ℕ}
    (hpath : ∀ c ∈ path, c < 2 ^ 32) (hout : out.length = outLen)
    (h : bip32PathFormat path out outLen = (true, out')) :
    bip32PathFromString (asciiText (cstr out')) = some (path.map (beBytes 4)) ↔
      ¬CutsLastNumber path outLen := by
  obtain ⟨htext, hcuts⟩ := cstr_of_shown hout h
  rw [htext]
  by_cases hfits : (pathText path).length < outLen
  · have hne : path ≠ [] := by
      rintro rfl
      cases h
    rw [List.take_of_length_le (Nat.le_sub_one_of_lt hfits), bip32PathFromString_pathText hne hpath]
    refine iff_of_true rfl ?_
    rintro ⟨_, _, _, _, _, _, hle⟩
    omega
  · refine iff_of_false (fun hread => ?_) (not_not.2 (hcuts (not_lt.1 hfits)))
    obtain ⟨front, last, rfl, -, hquote, hroom, hle⟩ := hcuts (not_lt.1 hfits)
    obtain ⟨m, hm, hread'⟩ := bip32PathFromString_take hpath hquote hroom hle
    rw [hread', Option.some.injEq, List.map_append, List.map_append, List.append_cancel_left_eq,
      List.map_singleton, List.map_singleton, List.singleton_inj] at hread
    have hlast := hpath last (by simp)
    have hvalue := congrArg beValue hread
    rw [beValue_beBytes, beValue_beBytes, Nat.mod_eq_of_lt (by norm_num; omega),
      Nat.mod_eq_of_lt (by norm_num; omega)] at hvalue
    omega

/-- Eight cells hold the path `44'/1` whole. -/
theorem bip32PathFromString_sample :
    bip32PathFromString (asciiText (cstr (bip32PathFormat [0x8000002C, 1] (List.replicate 8 0) 8).2)) =
      some ([0x8000002C, 1].map (beBytes 4)) := by
  have hshown : bip32PathFormat [0x8000002C, 1] (List.replicate 8 0) 8 =
      (true, [52, 52, 39, 47, 49, 0, 0, 0]) := by
    decide +kernel
  rw [hshown]
  refine (bip32PathFromString_shown_iff (by decide) rfl hshown).2 ?_
  rintro ⟨front, last, hpath, -, -, -, hle⟩
  revert hle
  decide +kernel

end HathorLedger.Client
