import Mathlib.Logic.Basic

/-!
# Programs that talk to an environment

A program sends requests and goes on with the answers until it returns or throws. The environment
has a state and may answer in several ways; how it behaves is a relation.

## Main definitions

* `Dialogue`: the programs, which are a monad.
* `Dialogue.each`: a loop over a list that collects the results of its rounds.
* `Dialogue.Runs`: a program runs to its end in an environment.

## Main results

* `Dialogue.runs_bind_ok_iff`, `Dialogue.runs_each_cons_iff`: runs of sequences and of loops.
* `Dialogue.Runs.mono`: runs in environments that may answer in more ways.
-/

/-- A program that sends requests and goes on with their answers. -/
inductive Dialogue (Request Answer ε : Type) (α : Type) : Type
  | pure (a : α)
  | throw (e : ε)
  | ask (request : Request) (next : Answer → Dialogue Request Answer ε α)

namespace Dialogue

variable {Request Answer ε α β γ σ : Type}

/-- Run a second program on the result of the first. -/
def bind : Dialogue Request Answer ε α → (α → Dialogue Request Answer ε β) →
    Dialogue Request Answer ε β
  | .pure a, f => f a
  | .throw e, _ => .throw e
  | .ask request next, f => .ask request fun answer => (next answer).bind f

instance : Monad (Dialogue Request Answer ε) where
  pure := Dialogue.pure
  bind := Dialogue.bind

/-- The answer to a request. -/
def send (request : Request) : Dialogue Request Answer ε Answer := .ask request .pure

/-- A value that may be missing, with the exception for that case. -/
def ofOption (e : ε) : Option α → Dialogue Request Answer ε α
  | some a => return a
  | none => .throw e

/-- Run a program for every element of a list, one after the other, and collect the results. -/
def each (f : β → Dialogue Request Answer ε α) : List β → Dialogue Request Answer ε (List α)
  | [] => return []
  | b :: bs => do
    let a ← f b
    let as ← each f bs
    return a :: as

/-- `Runs serve x s r s'`: in an environment that answers as `serve` describes, the program can run
from the state `s` to its end with the outcome `r`, and leaves the environment in the state `s'`. -/
inductive Runs (serve : σ → Request → Answer → σ → Prop) :
    Dialogue Request Answer ε α → σ → Except ε α → σ → Prop
  | pure (a : α) (s : σ) : Runs serve (.pure a) s (.ok a) s
  | throw (e : ε) (s : σ) : Runs serve (.throw e) s (.error e) s
  | ask {request : Request} {next : Answer → Dialogue Request Answer ε α} {answer : Answer}
    {s s' s'' : σ} {r : Except ε α} (h : serve s request answer s')
    (hnext : Runs serve (next answer) s' r s'') : Runs serve (.ask request next) s r s''

variable {serve : σ → Request → Answer → σ → Prop} {x : Dialogue Request Answer ε α}
  {f : α → Dialogue Request Answer ε β} {s s' s'' : σ} {r : Except ε α}

theorem runs_pure_iff {a : α} :
    Runs serve (Pure.pure a : Dialogue Request Answer ε α) s r s' ↔ r = .ok a ∧ s' = s := by
  constructor
  · rintro ⟨⟩
    exact ⟨rfl, rfl⟩
  · rintro ⟨rfl, rfl⟩
    exact .pure a _

theorem runs_throw_iff {e : ε} :
    Runs serve (.throw e : Dialogue Request Answer ε α) s r s' ↔ r = .error e ∧ s' = s := by
  constructor
  · rintro ⟨⟩
    exact ⟨rfl, rfl⟩
  · rintro ⟨rfl, rfl⟩
    exact .throw e _

theorem runs_send_ok_iff {request : Request} {answer : Answer} :
    Runs serve (send request : Dialogue Request Answer ε Answer) s (.ok answer) s' ↔
      serve s request answer s' := by
  constructor
  · rintro (⟨⟩ | ⟨⟩ | ⟨h, hnext⟩)
    cases hnext
    exact h
  · exact fun h => .ask h (.pure _ _)

/-- A sequence returns when both of its programs do. -/
theorem runs_bind_ok_iff {b : β} :
    Runs serve (x >>= f) s (.ok b) s'' ↔
      ∃ a s', Runs serve x s (.ok a) s' ∧ Runs serve (f a) s' (.ok b) s'' := by
  constructor
  · intro h
    change Runs serve (x.bind f) s (.ok b) s'' at h
    induction x generalizing s with
    | pure a => exact ⟨a, s, .pure a s, h⟩
    | throw e => cases h
    | ask request next ih =>
      cases h with
      | ask hserve hnext =>
        obtain ⟨a, s₁, hx, hf⟩ := ih _ hnext
        exact ⟨a, s₁, .ask hserve hx, hf⟩
  · rintro ⟨a, s', hx, hf⟩
    change Runs serve (x.bind f) s (.ok b) s''
    generalize hr : Except.ok a = r at hx
    induction hx with
    | pure a' s =>
      cases hr
      exact hf
    | throw e s => cases hr
    | ask hserve _ ih => exact .ask hserve (ih hf hr)

/-- A program whose result is not used returns when the program does. -/
theorem runs_discard_ok_iff :
    Runs serve (x >>= fun _ => Pure.pure ()) s (.ok ()) s' ↔ ∃ a, Runs serve x s (.ok a) s' := by
  rw [runs_bind_ok_iff]
  constructor
  · rintro ⟨a, s₁, hx, hreturn⟩
    obtain ⟨-, rfl⟩ := runs_pure_iff.1 hreturn
    exact ⟨a, hx⟩
  · rintro ⟨a, hx⟩
    exact ⟨a, s', hx, runs_pure_iff.2 ⟨rfl, rfl⟩⟩

theorem runs_ofOption_ok_iff {e : ε} {o : Option α} {a : α} :
    Runs serve (ofOption e o : Dialogue Request Answer ε α) s (.ok a) s' ↔ o = some a ∧ s' = s := by
  cases o with
  | none => simp [ofOption, runs_throw_iff]
  | some b =>
    rw [ofOption, runs_pure_iff, Except.ok.injEq, Option.some.injEq, eq_comm]

theorem runs_each_nil_iff {f : β → Dialogue Request Answer ε α} {as : List α} :
    Runs serve (each f []) s (.ok as) s' ↔ as = [] ∧ s' = s := by
  rw [each, runs_pure_iff, Except.ok.injEq]

/-- A loop returns when its first round and the rest of the loop do. -/
theorem runs_each_cons_iff {f : β → Dialogue Request Answer ε α} {b : β} {bs : List β}
    {as : List α} :
    Runs serve (each f (b :: bs)) s (.ok as) s'' ↔
      ∃ a as' s', as = a :: as' ∧ Runs serve (f b) s (.ok a) s' ∧
        Runs serve (each f bs) s' (.ok as') s'' := by
  simp only [each, runs_bind_ok_iff, runs_pure_iff, Except.ok.injEq]
  constructor
  · rintro ⟨a, s', hfirst, as', s₁, hrest, rfl, rfl⟩
    exact ⟨a, as', s', rfl, hfirst, hrest⟩
  · rintro ⟨a, as', s', rfl, hfirst, hrest⟩
    exact ⟨a, s', hfirst, as', s'', hrest, rfl, rfl⟩

/-- A run is also one in an environment that may answer in more ways. -/
theorem Runs.mono {serve' : σ → Request → Answer → σ → Prop}
    (hserve : ∀ s request answer s', serve s request answer s' → serve' s request answer s')
    (h : Runs serve x s r s') : Runs serve' x s r s' := by
  induction h with
  | pure a s => exact .pure a s
  | throw e s => exact .throw e s
  | ask h _ ih => exact .ask (hserve _ _ _ _ h) ih

end Dialogue
