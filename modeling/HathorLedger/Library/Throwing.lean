import Mathlib.Logic.Basic
import Mathlib.Tactic.SplitIfs

/-!
# Computations that throw

Small additions for computations in `Except ε` and in `EStateM ε σ`, where the state of a
computation that throws is the state at the throw: the check that throws when a condition fails, and
running a computation on one component of a larger state.

## Main definitions

* `Except.require`, `EStateM.require`: throw unless a condition holds.
* `Except.Throws`: all exceptions of a computation satisfy a predicate.
* `EStateM.embed`: a computation without state.
* `EStateM.zoom`: run a computation on a component of the state.
-/

/-- Throw `e` unless the condition holds. -/
def Except.require {ε : Type*} (c : Bool) (e : ε) : Except ε PUnit :=
  match c with
  | true => .ok ⟨⟩
  | false => .error e

namespace Except

variable {ε : Type*}

@[simp] theorem require_true (e : ε) : require true e = .ok ⟨⟩ := rfl

@[simp] theorem require_false (e : ε) : require false e = .error e := rfl

theorem require_eq (c : Bool) (e : ε) : require c e = if c then .ok ⟨⟩ else .error e := by
  cases c <;> rfl

end Except

section Bind

variable {ε α β : Type}

@[simp] theorem Except.ok_bind (a : α) (f : α → Except ε β) : (Except.ok a >>= f) = f a := rfl

@[simp] theorem Except.error_bind (e : ε) (f : α → Except ε β) :
    (Except.error e >>= f) = .error e := rfl

theorem Except.map_eq_ok_iff {f : α → β} {x : Except ε α} {b : β} :
    x.map f = .ok b ↔ ∃ a, x = .ok a ∧ f a = b := by
  cases x <;> simp [Except.map]

theorem Except.map_eq_error_iff {f : α → β} {x : Except ε α} {e : ε} :
    x.map f = .error e ↔ x = .error e := by
  cases x <;> simp [Except.map]

end Bind

namespace Except

variable {ε α β : Type} {P : ε → Prop}

/-- All exceptions of the computation satisfy `P`. -/
def Throws (P : ε → Prop) (x : Except ε α) : Prop := ∀ e, x = .error e → P e

theorem throws_ok (a : α) : Throws P (.ok a) := nofun

theorem throws_error {e : ε} (h : P e) : Throws P (.error e : Except ε α) :=
  fun _ heq => Except.error.inj heq ▸ h

theorem throws_require (c : Bool) {e : ε} (h : P e) : Throws P (require c e) := by
  cases c with
  | true => exact throws_ok _
  | false => exact throws_error h

theorem Throws.bind {x : Except ε α} {f : α → Except ε β} (hx : Throws P x)
    (hf : ∀ a, x = .ok a → Throws P (f a)) : Throws P (x >>= f) := by
  cases x with
  | ok a => exact hf a rfl
  | error e => exact throws_error (hx e rfl)

theorem Throws.ite {c : Prop} [Decidable c] {x y : Except ε α} (hx : Throws P x)
    (hy : Throws P y) : Throws P (if c then x else y) := by
  split_ifs <;> assumption

end Except

namespace EStateM

variable {ε σ τ α β : Type}

/-- Throw `e` unless the condition holds. -/
def require (c : Bool) (e : ε) : EStateM ε σ Unit := fun s =>
  match c with
  | true => .ok () s
  | false => .error e s

@[simp] theorem run_require_true (e : ε) (s : σ) : (require true e).run s = .ok () s := rfl

@[simp] theorem run_require_false (e : ε) (s : σ) : (require false e).run s = .error e s := rfl

/-- A computation without state, as one that leaves the state alone. -/
def embed (x : Except ε α) : EStateM ε σ α := fun s =>
  match x with
  | .ok a => .ok a s
  | .error e => .error e s

@[simp] theorem run_embed_ok (a : α) (s : σ) :
    (embed (.ok a) : EStateM ε σ α).run s = .ok a s := rfl

@[simp] theorem run_embed_error (e : ε) (s : σ) :
    (embed (.error e) : EStateM ε σ α).run s = .error e s := rfl

/-- Run a computation on the component of the state that `get` reads and `set` writes. -/
def zoom (get : σ → τ) (set : τ → σ → σ) (x : EStateM ε τ α) : EStateM ε σ α := fun s =>
  match x.run (get s) with
  | .ok a t => .ok a (set t s)
  | .error e t => .error e (set t s)

end EStateM
