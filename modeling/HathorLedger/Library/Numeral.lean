import Mathlib.Data.List.TakeWhile
import Mathlib.Data.Nat.Digits.Lemmas

/-!
# Positional numerals

The digits of a number in a base, the most significant first, which is the order in which they are
read and written. Mathlib's `Nat.digits` and `Nat.ofDigits` have the least significant digit first.
A list of digits may have zeros in front: `Numeral.value` does not depend on them, and
`Numeral.digits` has none.

## Main definitions

* `Numeral.value`: the number that a list of digits stands for.
* `Numeral.digits`: the digits of a number, without zeros in front.
* `Numeral.padded`: a number of digits that is given, with zeros in front.

## Main results

* `Numeral.digits_value`: the digits of the value of a list are the list without its leading zeros.
* `Numeral.value_digits`, `Numeral.value_padded`: what the digits stand for.
-/

/-! ### Leading copies of an element -/

namespace List

variable {α : Type*}

theorem drop_length_takeWhile (p : α → Bool) (l : List α) :
    l.drop (l.takeWhile p).length = l.dropWhile p :=
  (congrArg (List.drop _) takeWhile_append_dropWhile.symm).trans drop_left

variable [BEq α] [LawfulBEq α] {x : α} {l : List α}

/-- The leading copies of an element are those that were put in front of a list. -/
theorem takeWhile_replicate_append (n : ℕ) (h : l.head? ≠ some x) :
    (replicate n x ++ l).takeWhile (· == x) = replicate n x := by
  rw [takeWhile_append_of_pos fun d hd => by simp [eq_of_mem_replicate hd]]
  cases l with
  | nil => simp
  | cons d l =>
    have hne : d ≠ x := by simpa using h
    simp [hne]

theorem dropWhile_replicate_append (n : ℕ) (h : l.head? ≠ some x) :
    (replicate n x ++ l).dropWhile (· == x) = l := by
  rw [← drop_length_takeWhile, takeWhile_replicate_append n h, drop_left' rfl]

theorem replicate_append_dropWhile (l : List α) (x : α) :
    replicate (l.takeWhile (· == x)).length x ++ l.dropWhile (· == x) = l := by
  have hcopies : l.takeWhile (· == x) = replicate (l.takeWhile (· == x)).length x :=
    eq_replicate_of_mem fun _ hd => by simpa using mem_takeWhile_imp hd
  rw [← hcopies, takeWhile_append_dropWhile]

theorem head_dropWhile_ne (l : List α) (x : α) : (l.dropWhile (· == x)).head? ≠ some x := by
  intro h
  have hhead := head?_dropWhile_not (· == x) l
  rw [h] at hhead
  simp at hhead

end List

namespace Numeral

variable {b d n k : ℕ} {l m : List ℕ}

/-- The number with the digits `l` in base `b`. -/
def value (b : ℕ) (l : List ℕ) : ℕ := l.foldl (fun n d => b * n + d) 0

/-- The digits of `n` in base `b`. -/
def digits (b n : ℕ) : List ℕ := (Nat.digits b n).reverse

/-- The last `k` digits of `n` in base `b`. -/
def padded (b : ℕ) : ℕ → ℕ → List ℕ
  | 0, _ => []
  | k + 1, n => padded b k (n / b) ++ [n % b]

/-! ### The value of a list of digits -/

@[simp] theorem value_nil : value b [] = 0 := rfl

@[simp] theorem value_singleton : value b [d] = d := by simp [value]

@[simp] theorem value_append_singleton : value b (l ++ [d]) = b * value b l + d := by
  simp [value, List.foldl_append]

theorem value_append : value b (l ++ m) = value b l * b ^ m.length + value b m := by
  induction m using List.reverseRecOn with
  | nil => simp
  | append_singleton m d ih =>
    rw [← List.append_assoc, value_append_singleton, ih, value_append_singleton, List.length_append,
      List.length_singleton, pow_succ]
    ring

theorem value_cons : value b (d :: l) = d * b ^ l.length + value b l := by
  rw [← List.singleton_append, value_append, value_singleton]

theorem value_eq_ofDigits : value b l = Nat.ofDigits b l.reverse := by
  induction l using List.reverseRecOn with
  | nil => rfl
  | append_singleton l d ih =>
    rw [value_append_singleton, ih, List.reverse_append, List.reverse_singleton,
      List.singleton_append, Nat.ofDigits_cons, Nat.add_comm]

theorem value_lt (hb : 1 < b) (hl : ∀ d ∈ l, d < b) : value b l < b ^ l.length := by
  rw [value_eq_ofDigits, ← List.length_reverse]
  exact Nat.ofDigits_lt_base_pow_length hb (by simpa using hl)

/-- Zeros have no value. -/
theorem value_eq_zero (hl : ∀ d ∈ l, d = 0) : value b l = 0 := by
  rw [List.eq_replicate_of_mem hl, value_eq_ofDigits, List.reverse_replicate,
    Nat.ofDigits_replicate_zero]

/-- Zeros in front do not count. -/
theorem value_append_of_zeros (hl : ∀ d ∈ l, d = 0) : value b (l ++ m) = value b m := by
  rw [value_append, value_eq_zero hl, Nat.zero_mul, Nat.zero_add]

theorem value_dropWhile (l : List ℕ) : value b (l.dropWhile (· == 0)) = value b l := by
  conv_rhs => rw [← List.replicate_append_dropWhile l 0]
  exact (value_append_of_zeros fun d hd => List.eq_of_mem_replicate hd).symm

/-- One more digit is taken from a list. -/
theorem value_take_succ (h : k < l.length) :
    value b (l.take (k + 1)) = b * value b (l.take k) + l.getD k 0 := by
  rw [List.take_add_one, List.getElem?_eq_getElem h, Option.toList_some, value_append_singleton,
    List.getD_eq_getElem?_getD, List.getElem?_eq_getElem h, Option.getD_some]

/-! ### The digits of a number -/

@[simp] theorem digits_zero : digits b 0 = [] := by simp [digits]

@[simp] theorem value_digits : value b (digits b n) = n := by
  rw [value_eq_ofDigits, digits, List.reverse_reverse, Nat.ofDigits_digits]

theorem lt_of_mem_digits (hb : 1 < b) (hd : d ∈ digits b n) : d < b :=
  Nat.digits_lt_base hb (List.mem_reverse.1 hd)

theorem length_digits_le_iff (hb : 1 < b) : (digits b n).length ≤ k ↔ n < b ^ k := by
  rw [digits, List.length_reverse, Nat.digits_length_le_iff hb]

theorem digits_eq_nil_iff : digits b n = [] ↔ n = 0 := by
  rw [digits, List.reverse_eq_nil_iff, Nat.digits_eq_nil_iff_eq_zero]

/-- The last digit is split off. -/
theorem digits_eq_append (hb : 1 < b) (hn : 0 < n) :
    digits b n = digits b (n / b) ++ [n % b] := by
  rw [digits, digits, Nat.digits_def' hb hn, List.reverse_cons]

/-- A list with no zero in front consists of the digits of its value. -/
theorem digits_value_of_head (hb : 1 < b) (hl : ∀ d ∈ l, d < b) (hhead : l.head? ≠ some 0) :
    digits b (value b l) = l := by
  rw [digits, value_eq_ofDigits, Nat.digits_ofDigits b hb, List.reverse_reverse]
  · simpa using hl
  · intro hne hlast
    rw [List.getLast_reverse] at hlast
    exact hhead (by rw [List.head?_eq_some_head (by simpa using hne), hlast])

/-- The digits of the value of a list are the list without its leading zeros. -/
theorem digits_value (hb : 1 < b) (hl : ∀ d ∈ l, d < b) :
    digits b (value b l) = l.dropWhile (· == 0) := by
  rw [← value_dropWhile]
  exact digits_value_of_head hb (fun d hd => hl d ((List.dropWhile_sublist _).subset hd))
    (List.head_dropWhile_ne l 0)

theorem dropWhile_digits (hb : 1 < b) : (digits b n).dropWhile (· == 0) = digits b n := by
  rw [← digits_value hb fun d hd => lt_of_mem_digits hb hd, value_digits]

theorem head_digits_ne_zero (hb : 1 < b) : (digits b n).head? ≠ some 0 :=
  dropWhile_digits (n := n) hb ▸ List.head_dropWhile_ne _ 0

/-! ### A fixed number of digits -/

@[simp] theorem length_padded : (padded b k n).length = k := by
  induction k generalizing n with
  | zero => rfl
  | succ k ih => rw [padded, List.length_append, ih, List.length_singleton]

theorem value_padded : value b (padded b k n) = n % b ^ k := by
  induction k generalizing n with
  | zero => rw [padded, value_nil, pow_zero, Nat.mod_one]
  | succ k ih =>
    rw [padded, value_append_singleton, ih, pow_succ, Nat.mul_comm (b ^ k), Nat.mod_mul,
      Nat.add_comm]

theorem lt_of_mem_padded (hb : 0 < b) (hd : d ∈ padded b k n) : d < b := by
  induction k generalizing n with
  | zero => exact absurd hd (List.not_mem_nil)
  | succ k ih =>
    rcases List.mem_append.1 hd with hd | hd
    · exact ih hd
    · exact List.mem_singleton.1 hd ▸ Nat.mod_lt _ hb

/-- Enough digits are all digits, with zeros in front of them. -/
theorem dropWhile_padded (hb : 1 < b) (hn : n < b ^ k) :
    (padded b k n).dropWhile (· == 0) = digits b n := by
  rw [← digits_value hb fun d hd => lt_of_mem_padded (by omega) hd, value_padded,
    Nat.mod_eq_of_lt hn]

end Numeral
