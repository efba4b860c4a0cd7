import HathorLedger.Library.WeakestPrecondition

/-!
# Two runs of computations that throw

A statement about two runs relates the states of two computations in `EStateM ε σ`. The computations
agree if they end in the same way, with equal results or equal exceptions, and in related states.
The rules follow two computations of the same shape step by step.

## Main definitions

* `EStateM.Agree`: the computations end in the same way, in related states.

## Main results

* `EStateM.agree_bind`: computations agree one after the other.
* `EStateM.agree_get_bind`, `EStateM.agree_modify_bind`, ...: the rules of the operations.
* `EStateM.agree_zoom`: a computation on a component that both states have in common.
-/

namespace EStateM

variable {ε σ τ α β : Type}

/-- From the states `s` and `t` the computations end in the same way, and in related states. -/
def Agree (x y : EStateM ε σ α) (Q : α → σ → σ → Prop) (E : ε → σ → σ → Prop) (s t : σ) : Prop :=
  match x.run s, y.run t with
  | .ok a s', .ok b t' => a = b ∧ Q a s' t'
  | .error e s', .error e' t' => e = e' ∧ E e s' t'
  | _, _ => False

section Rules

variable {x y : EStateM ε σ α} {Q Q' : α → σ → σ → Prop} {E : ε → σ → σ → Prop} {s t : σ}

@[simp] theorem agree_pure (a : α) : (pure a : EStateM ε σ α).Agree (pure a) Q E s t ↔ Q a s t :=
  and_iff_right rfl

@[simp] theorem agree_throw (e : ε) :
    (throw e : EStateM ε σ α).Agree (throw e) Q E s t ↔ E e s t :=
  and_iff_right rfl

theorem agree_bind {f g : α → EStateM ε σ β} {Q : β → σ → σ → Prop} (h : x.Agree y Q' E s t)
    (hf : ∀ a s' t', Q' a s' t' → (f a).Agree (g a) Q E s' t') :
    (x >>= f).Agree (y >>= g) Q E s t := by
  simp only [Agree, run, bind, EStateM.bind] at h ⊢
  cases hx : x s with
  | ok a s' =>
    cases hy : y t with
    | ok b t' =>
      rw [hx, hy] at h
      obtain ⟨rfl, h⟩ := h
      exact hf a s' t' h
    | error e t' =>
      rw [hx, hy] at h
      exact h.elim
  | error e s' =>
    cases hy : y t with
    | ok b t' =>
      rw [hx, hy] at h
      exact h.elim
    | error e' t' =>
      rw [hx, hy] at h
      exact h

theorem agree_mono {E' : ε → σ → σ → Prop} (hQ : ∀ a s' t', Q a s' t' → Q' a s' t')
    (hE : ∀ e s' t', E e s' t' → E' e s' t') (h : x.Agree y Q E s t) : x.Agree y Q' E' s t := by
  unfold Agree at h ⊢
  cases hx : x.run s <;> cases hy : y.run t <;> rw [hx, hy] at h <;> dsimp only at h ⊢
  · exact ⟨h.1, hQ _ _ _ h.2⟩
  · exact ⟨h.1, hE _ _ _ h.2⟩

@[simp] theorem agree_get_bind {f g : σ → EStateM ε σ α} :
    (get >>= f).Agree (get >>= g) Q E s t ↔ (f s).Agree (g t) Q E s t :=
  Iff.rfl

@[simp] theorem agree_set_bind {f g : PUnit → EStateM ε σ α} (s' t' : σ) :
    (set s' >>= f).Agree (set t' >>= g) Q E s t ↔ (f ⟨⟩).Agree (g ⟨⟩) Q E s' t' :=
  Iff.rfl

@[simp] theorem agree_modify_bind {f g : PUnit → EStateM ε σ α} (u v : σ → σ) :
    (modify u >>= f).Agree (modify v >>= g) Q E s t ↔ (f ⟨⟩).Agree (g ⟨⟩) Q E (u s) (v t) :=
  Iff.rfl

@[simp] theorem agree_modifyGet_bind {f g : β → EStateM ε σ α} (u v : σ → β × σ) :
    (modifyGet u >>= f).Agree (modifyGet v >>= g) Q E s t ↔
      (f (u s).1).Agree (g (v t).1) Q E (u s).2 (v t).2 :=
  Iff.rfl

@[simp] theorem agree_modify {Q : PUnit → σ → σ → Prop} (u v : σ → σ) :
    (modify u : EStateM ε σ PUnit).Agree (modify v) Q E s t ↔ Q ⟨⟩ (u s) (v t) :=
  and_iff_right rfl

@[simp] theorem agree_modifyGet (u v : σ → α × σ) :
    (modifyGet u : EStateM ε σ α).Agree (modifyGet v) Q E s t ↔
      (u s).1 = (v t).1 ∧ Q (u s).1 (u s).2 (v t).2 :=
  Iff.rfl

/-- A computation on a component that both states have in common. -/
theorem agree_zoom {get : σ → τ} {set : τ → σ → σ} {z : EStateM ε τ α} (hget : get t = get s)
    (h : z.wp (fun a u => Q a (set u s) (set u t)) (fun e u => E e (set u s) (set u t)) (get s)) :
    (zoom get set z).Agree (zoom get set z) Q E s t := by
  simp only [Agree, run, zoom, hget]
  cases hz : z (get s) with
  | ok a u => exact ⟨rfl, (wp_of_run_ok hz).1 h⟩
  | error e u => exact ⟨rfl, (wp_of_run_error hz).1 h⟩

end Rules

end EStateM
