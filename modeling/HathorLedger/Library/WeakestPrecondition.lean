import HathorLedger.Library.Throwing

/-!
# Weakest preconditions of computations that throw

A computation in `EStateM ε σ` has two kinds of outcome, so its specification has two
postconditions: one for the results and one for the exceptions. `EStateM.wp x Q E` holds of the
states from which `x` ends in one of them, and the rules below push it through the operations of
the monad. They are stated as equivalences and tagged for `simp`, which then turns a statement about
a program into one about its states.

## Main definitions

* `EStateM.wp`: the weakest precondition for a postcondition on results and one on exceptions.

## Main results

* `EStateM.wp_bind`, `EStateM.wp_require`, `EStateM.wp_zoom`, ...: the rules of the operations.
* `EStateM.wp_mono`: weakening of the postconditions.
* `EStateM.wp_and`: two specifications hold together.
* `EStateM.wp_run`: the specification that names the run.
* `EStateM.exists_run_of_wp`: without exceptions there is a result.
-/

namespace EStateM

variable {ε σ τ α β : Type}

/-- From the state `s` the computation ends with a result that satisfies `Q` or throws an exception
that satisfies `E`. -/
def wp (x : EStateM ε σ α) (Q : α → σ → Prop) (E : ε → σ → Prop) (s : σ) : Prop :=
  match x.run s with
  | .ok a s' => Q a s'
  | .error e s' => E e s'

section Rules

variable {Q : α → σ → Prop} {E : ε → σ → Prop} {s : σ}

theorem wp_of_run_ok {x : EStateM ε σ α} {a : α} {s' : σ} (h : x.run s = .ok a s') :
    x.wp Q E s ↔ Q a s' := by
  rw [wp, h]

theorem wp_of_run_error {x : EStateM ε σ α} {e : ε} {s' : σ} (h : x.run s = .error e s') :
    x.wp Q E s ↔ E e s' := by
  rw [wp, h]

@[simp] theorem wp_pure (a : α) : (pure a : EStateM ε σ α).wp Q E s ↔ Q a s := Iff.rfl

@[simp] theorem wp_throw (e : ε) : (throw e : EStateM ε σ α).wp Q E s ↔ E e s := Iff.rfl

@[simp] theorem wp_bind (x : EStateM ε σ β) (f : β → EStateM ε σ α) :
    (x >>= f).wp Q E s ↔ x.wp (fun b s' => (f b).wp Q E s') E s := by
  simp only [wp, run, bind, EStateM.bind]
  cases x s <;> rfl

@[simp] theorem wp_map (f : β → α) (x : EStateM ε σ β) :
    (f <$> x).wp Q E s ↔ x.wp (fun b => Q (f b)) E s := by
  simp only [wp, run, Functor.map, EStateM.map]
  cases x s <;> rfl

@[simp] theorem wp_get {Q : σ → σ → Prop} : (get : EStateM ε σ σ).wp Q E s ↔ Q s s := Iff.rfl

@[simp] theorem wp_set {Q : PUnit → σ → Prop} (s' : σ) :
    (set s' : EStateM ε σ PUnit).wp Q E s ↔ Q ⟨⟩ s' := Iff.rfl

@[simp] theorem wp_modify {Q : PUnit → σ → Prop} (f : σ → σ) :
    (modify f : EStateM ε σ PUnit).wp Q E s ↔ Q ⟨⟩ (f s) := Iff.rfl

@[simp] theorem wp_modifyGet (f : σ → α × σ) :
    (modifyGet f : EStateM ε σ α).wp Q E s ↔ Q (f s).1 (f s).2 := Iff.rfl

@[simp] theorem wp_require {Q : Unit → σ → Prop} (c : Bool) (e : ε) :
    (require c e).wp Q E s ↔ if c then Q () s else E e s := by
  cases c <;> exact Iff.rfl

@[simp] theorem wp_embed (x : Except ε α) :
    (embed x).wp Q E s ↔ match x with
      | .ok a => Q a s
      | .error e => E e s := by
  cases x <;> exact Iff.rfl

@[simp] theorem wp_zoom (get : σ → τ) (set : τ → σ → σ) (x : EStateM ε τ α) :
    (zoom get set x).wp Q E s ↔
      x.wp (fun a t => Q a (set t s)) (fun e t => E e (set t s)) (get s) := by
  simp only [wp, zoom, run]
  cases x (get s) <;> rfl

@[simp] theorem wp_ite (c : Prop) [Decidable c] (x y : EStateM ε σ α) :
    (if c then x else y).wp Q E s ↔ if c then x.wp Q E s else y.wp Q E s := by
  split <;> rfl

end Rules

theorem wp_mono {x : EStateM ε σ α} {Q Q' : α → σ → Prop} {E E' : ε → σ → Prop} {s : σ}
    (hQ : ∀ a s', Q a s' → Q' a s') (hE : ∀ e s', E e s' → E' e s') (h : x.wp Q E s) :
    x.wp Q' E' s := by
  rw [wp] at h ⊢
  cases hx : x.run s with
  | ok a s' => exact hQ a s' (by rwa [hx] at h)
  | error e s' => exact hE e s' (by rwa [hx] at h)

/-- A computation that throws no exception has a result. -/
theorem exists_run_of_wp {x : EStateM ε σ α} {Q : α → σ → Prop} {s : σ}
    (h : x.wp Q (fun _ _ => False) s) : ∃ a s', x.run s = .ok a s' ∧ Q a s' := by
  rw [wp] at h
  cases hx : x.run s with
  | ok a s' => exact ⟨a, s', rfl, by rwa [hx] at h⟩
  | error e s' =>
    rw [hx] at h
    exact h.elim

/-- The outcome is the one of the run. -/
theorem wp_run (x : EStateM ε σ α) (s : σ) :
    x.wp (fun a s' => x.run s = .ok a s') (fun e s' => x.run s = .error e s') s := by
  rw [wp]
  cases hx : x.run s with
  | ok a s' => rfl
  | error e s' => rfl

theorem wp_and {x : EStateM ε σ α} {Q Q' : α → σ → Prop} {E E' : ε → σ → Prop} {s : σ}
    (h : x.wp Q E s) (h' : x.wp Q' E' s) :
    x.wp (fun a s' => Q a s' ∧ Q' a s') (fun e s' => E e s' ∧ E' e s') s := by
  rw [wp] at h h' ⊢
  cases hx : x.run s with
  | ok a s' => exact ⟨by rwa [hx] at h, by rwa [hx] at h'⟩
  | error e s' => exact ⟨by rwa [hx] at h, by rwa [hx] at h'⟩

-- The rules above replace the definition; unfolding it would run the program.
attribute [irreducible] wp

end EStateM
