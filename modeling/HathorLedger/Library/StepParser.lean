import Mathlib.Data.List.TakeDrop
import Mathlib.Logic.Basic

/-!
# Incremental parsers

A parser that is fed its input in chunks keeps the symbols that it could not use yet and tries again
when more arrive. One attempt looks at the pending symbols and asks for more, rejects them, or emits
an element, which uses up a front part of them. This file develops such parsers from three laws on a
single attempt: an emission uses up at least one symbol, it does not depend on the symbols behind
those it uses, and a rejection stands whatever follows.

## Main definitions

* `StepParser`: the attempt and its laws.
* `StepParser.drain`: repeat the attempt on the pending symbols while it emits.
* `StepParser.feed`, `StepParser.feedAll`: drain the pending symbols after each chunk.
* `StepParser.Emits`: a sequence of emissions that uses up a given word.

## Main results

* `StepParser.drain_append`: draining a word in two parts.
* `StepParser.feedAll_eq_drain`: how the input is cut into chunks does not matter.
* `StepParser.drain_eq_ok_iff`: what draining accepts, as a sequence of emissions.
-/

/-- The outcome of one attempt on the pending symbols. -/
inductive ParseStep (ε σ : Type)
  /-- More symbols are needed. -/
  | more
  /-- The pending symbols are rejected. -/
  | fail (e : ε)
  /-- The first `n` pending symbols are used up and the state changes to `s`. -/
  | emit (n : ℕ) (s : σ)

/-- A parser with states in `σ`, errors in `ε` and symbols in `β`. -/
structure StepParser (ε σ β : Type) where
  /-- One attempt on the pending symbols. -/
  next : σ → List β → ParseStep ε σ
  emit_pos : ∀ {s p n s'}, next s p = .emit n s' → 0 < n
  emit_le : ∀ {s p n s'}, next s p = .emit n s' → n ≤ p.length
  emit_take : ∀ {s p n s'}, next s p = .emit n s' → next s (p.take n) = .emit n s'
  emit_append : ∀ {s p n s'} (q), next s p = .emit n s' → next s (p ++ q) = .emit n s'
  fail_append : ∀ {s p e} (q), next s p = .fail e → next s (p ++ q) = .fail e

namespace StepParser

variable {ε σ β : Type} (P : StepParser ε σ β)

/-- Repeat the attempt while it emits. The result is the last state with the symbols still pending,
or the first rejection. -/
def drain (s : σ) (p : List β) : Except ε (σ × List β) :=
  match _h : P.next s p with
  | .more => .ok (s, p)
  | .fail e => .error e
  | .emit n s' => drain s' (p.drop n)
termination_by p.length
decreasing_by
  have hpos := P.emit_pos _h
  have hle := P.emit_le _h
  rw [List.length_drop]
  omega

/-- One chunk arrives behind the pending symbols. -/
def feed (st : σ × List β) (chunk : List β) : Except ε (σ × List β) :=
  P.drain st.1 (st.2 ++ chunk)

/-- The chunks arrive one after the other. -/
def feedAll : σ × List β → List (List β) → Except ε (σ × List β)
  | st, [] => .ok st
  | st, chunk :: chunks => (P.feed st chunk).bind fun st => feedAll st chunks

/-- The word is a sequence of elements that take the parser from one state to another. -/
inductive Emits : σ → List β → σ → Prop
  | nil (s : σ) : Emits s [] s
  | cons {s s' s'' : σ} {a b : List β} (h : P.next s a = .emit a.length s')
      (hrest : Emits s' b s'') : Emits s (a ++ b) s''

/-! ### Draining -/

section Drain

variable {P} {s s' : σ} {p : List β}

theorem drain_of_more (h : P.next s p = .more) : P.drain s p = .ok (s, p) := by
  rw [drain]
  split <;> simp_all

theorem drain_of_fail {e : ε} (h : P.next s p = .fail e) : P.drain s p = .error e := by
  rw [drain]
  split <;> simp_all

theorem drain_of_emit {n : ℕ} (h : P.next s p = .emit n s') :
    P.drain s p = P.drain s' (p.drop n) := by
  rw [drain]
  split <;> simp_all

/-- Induction along the attempts that `drain` makes. -/
theorem drain_induction {motive : σ → List β → Prop}
    (more : ∀ s p, P.next s p = .more → motive s p)
    (fail : ∀ s p e, P.next s p = .fail e → motive s p)
    (emit : ∀ s p n s', P.next s p = .emit n s' → motive s' (p.drop n) → motive s p)
    (s : σ) (p : List β) : motive s p := by
  induction s, p using drain.induct P with
  | case1 s p h => exact more s p h
  | case2 s p e h => exact fail s p e h
  | case3 s p n s' h ih => exact emit s p n s' h ih

end Drain

/-- Draining stops in a state where the pending symbols do not suffice. -/
theorem next_of_drain_eq_ok {s : σ} {p : List β} {st : σ × List β} (h : P.drain s p = .ok st) :
    P.next st.1 st.2 = .more := by
  induction s, p using drain_induction (P := P) with
  | more s p hmore =>
    rw [drain_of_more hmore, Except.ok.injEq] at h
    rwa [← h]
  | fail s p e hfail => simp [drain_of_fail hfail] at h
  | emit s p n s' hemit ih => exact ih (by rwa [← drain_of_emit hemit])

/-- Draining a word is draining its first part, and then the rest behind what that left pending. -/
theorem drain_append (s : σ) (p q : List β) :
    P.drain s (p ++ q) = (P.drain s p).bind fun st => P.drain st.1 (st.2 ++ q) := by
  induction s, p using drain_induction (P := P) with
  | more s p h => rw [drain_of_more h]; rfl
  | fail s p e h => rw [drain_of_fail h, drain_of_fail (P.fail_append q h)]; rfl
  | emit s p n s' h ih =>
    rw [drain_of_emit h, drain_of_emit (P.emit_append q h),
      List.drop_append_of_le_length (P.emit_le h), ih]

/-- A string that is drained in one go can be drained in two parts. -/
theorem exists_drain_of_append {s : σ} {p q : List β} {st : σ × List β}
    (h : P.drain s (p ++ q) = .ok st) :
    ∃ s' r, P.drain s p = .ok (s', r) ∧ P.drain s' (r ++ q) = .ok st := by
  rw [drain_append] at h
  cases hp : P.drain s p with
  | error e =>
    rw [hp] at h
    cases h
  | ok st' =>
    rw [hp] at h
    exact ⟨st'.1, st'.2, rfl, h⟩

/-! ### Feeding -/

/-- However the input is cut into chunks, feeding it is draining it as a whole. -/
theorem feedAll_eq_drain {s : σ} {p : List β} (h : P.next s p = .more) (chunks : List (List β)) :
    P.feedAll (s, p) chunks = P.drain s (p ++ chunks.flatten) := by
  induction chunks generalizing s p with
  | nil => simp [feedAll, drain_of_more h]
  | cons chunk chunks ih =>
    rw [List.flatten_cons, ← List.append_assoc, drain_append, feedAll, feed]
    cases hfed : P.drain s (p ++ chunk) with
    | error e => rfl
    | ok st => exact ih (P.next_of_drain_eq_ok hfed)

/-! ### Sequences of emissions -/

section Emits

variable {P}

theorem Emits.append {s s' s'' : σ} {a b : List β} (ha : P.Emits s a s') (hb : P.Emits s' b s'') :
    P.Emits s (a ++ b) s'' := by
  induction ha with
  | nil s => exact hb
  | cons h hrest ih =>
    rw [List.append_assoc]
    exact .cons h (ih hb)

theorem Emits.single {s s' : σ} {a : List β} (h : P.next s a = .emit a.length s') :
    P.Emits s a s' := by
  simpa using Emits.cons h (.nil s')

/-- What holds of a state and is preserved by every emission holds after a sequence of them. -/
theorem Emits.invariant (I : σ → List β → Prop) {s s' : σ} {a used : List β}
    (h : P.Emits s a s') (h₀ : I s used)
    (step : ∀ {s s' used b}, P.next s b = .emit b.length s' → I s used → I s' (used ++ b)) :
    I s' (used ++ a) := by
  induction h generalizing used with
  | nil s => simpa using h₀
  | cons h hrest ih =>
    rw [← List.append_assoc]
    exact ih (step h h₀)

theorem Emits.drain_append {s s' : σ} {a : List β} (h : P.Emits s a s') (r : List β) :
    P.drain s (a ++ r) = P.drain s' r := by
  induction h with
  | nil s => rfl
  | @cons s s' s'' a b h hrest ih =>
    rw [List.append_assoc, drain_of_emit (P.emit_append (b ++ r) h), List.drop_left, ih]

/-- Draining accepts a word exactly if it is a sequence of elements followed by symbols that do not
suffice for another one. -/
theorem drain_eq_ok_iff {s s' : σ} {p r : List β} :
    P.drain s p = .ok (s', r) ↔ ∃ a, p = a ++ r ∧ P.Emits s a s' ∧ P.next s' r = .more := by
  constructor
  · intro h
    induction s, p using drain_induction (P := P) with
    | more s p hmore =>
      rw [drain_of_more hmore, Except.ok.injEq, Prod.mk.injEq] at h
      obtain ⟨rfl, rfl⟩ := h
      exact ⟨[], rfl, .nil s, hmore⟩
    | fail s p e hfail => simp [drain_of_fail hfail] at h
    | emit s p n s₁ hemit ih =>
      obtain ⟨a, hp, ha, hmore⟩ := ih (by rwa [← drain_of_emit hemit])
      have htake : (p.take n).length = n := List.length_take_of_le (P.emit_le hemit)
      refine ⟨p.take n ++ a, ?_, .cons ?_ ha, hmore⟩
      · rw [List.append_assoc, ← hp, List.take_append_drop]
      · rw [htake]
        exact P.emit_take hemit
  · rintro ⟨a, rfl, ha, hmore⟩
    rw [ha.drain_append, drain_of_more hmore]

end Emits

end StepParser
