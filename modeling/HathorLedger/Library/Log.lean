import Mathlib.Data.List.Basic

/-!
# Logs

A log is a list of entries, the newest first. `Grown P` relates a log to a longer one whose new
entries all satisfy `P`, which may speak of an entry and of the log in front of it. What holds of
every step of a system in this form then holds of all entries of the log of a run.

## Main definitions

* `Grown`: the log has grown by entries that satisfy a predicate.

## Main results

* `Grown.trans`, `Grown.mono`, `Grown.append`: how the relation composes.
* `Grown.suffix`: the longer log ends with the other one.
* `Grown.of_mem`, `Grown.of_suffix`: what it says about the entries of a log.
-/

variable {α : Type} {P Q : α → List α → Prop} {log log' log'' rest events : List α} {e : α}

/-- The log has grown by entries that satisfy `P` together with the log in front of them. -/
inductive Grown (P : α → List α → Prop) (log : List α) : List α → Prop
  | refl : Grown P log log
  | cons {log' : List α} {e : α} (h : Grown P log log') (he : P e log') : Grown P log (e :: log')

namespace Grown

theorem trans (h : Grown P log log') (h' : Grown P log' log'') : Grown P log log'' := by
  induction h' with
  | refl => exact h
  | cons _ he ih => exact .cons ih he

theorem mono (hP : ∀ e rest, P e rest → Q e rest) (h : Grown P log log') : Grown Q log log' := by
  induction h with
  | refl => exact .refl
  | cons _ he ih => exact .cons ih (hP _ _ he)

theorem suffix (h : Grown P log log') : log <:+ log' := by
  induction h with
  | refl => exact List.suffix_rfl
  | cons _ _ ih => exact ih.trans (List.suffix_cons _ _)

/-- A log grows by events that satisfy the predicate wherever they stand. -/
theorem append (hevents : ∀ e ∈ events, ∀ rest, P e rest) (h : Grown P log log') :
    Grown P log (events ++ log') := by
  induction events with
  | nil => exact h
  | cons e events ih =>
    obtain ⟨he, hmore⟩ := List.forall_mem_cons.1 hevents
    exact .cons (ih hmore) (he _)

/-- Every entry of a log that has grown out of nothing satisfies the predicate with what is in front
of it. -/
theorem of_suffix (h : Grown P [] log) (hs : e :: rest <:+ log) : P e rest := by
  induction h with
  | refl => exact absurd (List.suffix_nil.1 hs) (List.cons_ne_nil _ _)
  | cons _ he ih =>
    rcases List.suffix_cons_iff.1 hs with heq | hs
    · obtain ⟨rfl, rfl⟩ := List.cons.inj heq
      exact he
    · exact ih hs

theorem of_mem {P : α → Prop} (h : Grown (fun e _ => P e) [] log) (he : e ∈ log) : P e := by
  obtain ⟨newer, rest, rfl⟩ := List.append_of_mem he
  exact h.of_suffix (List.suffix_append newer (e :: rest))

end Grown
