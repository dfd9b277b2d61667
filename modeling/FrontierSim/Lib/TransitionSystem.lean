import Mathlib.Logic.Relation

/-!
# Labelled transition systems with a guard

A `TransitionSystem` has one initial state and a step that is a partial function of a
label. The label carries every choice of the environment: which process moves, and what
the outside world answers. So a run is a list of labels, and a run on fixed labels can be
evaluated.

A *guard* `ok : σ → ι → Prop` restricts the environment: `Reachable ok` holds of the
states that are reached by labels which the guard allows in the state where they are
taken. The guard that allows everything is `TransitionSystem.any`.

* `Reachable.invariant`: what holds initially and is kept by every allowed step holds in
  every reachable state.
* `Reachable.invariant_of`: the same, where the step may use another fact that is already
  known for every reachable state.
* `Path.invariant`: the same from an arbitrary state, along a path.
* `Reachable.mono`: a stricter guard reaches no more states.
* `reachable_of_run`: the end of an evaluated run is reachable.
-/

set_option autoImplicit false

namespace Lib

/-- An initial state and a step for each label. A label that is not enabled in a state
has no result there. -/
structure TransitionSystem (σ ι : Type) where
  init : σ
  step : ι → σ → Option σ

namespace TransitionSystem

variable {σ ι : Type} {M : TransitionSystem σ ι} {ok : σ → ι → Prop}

/-- The guard that allows every label. -/
def any (_ : σ) (_ : ι) : Prop := True

/-- Without a guard there is nothing to check. -/
instance : DecidableRel (any (σ := σ) (ι := ι)) := fun _ _ => instDecidableTrue

/-- Finite paths of allowed steps. -/
inductive Path (M : TransitionSystem σ ι) (ok : σ → ι → Prop) (s : σ) : σ → Prop
  | refl : Path M ok s s
  | tail {t u : σ} {a : ι} : Path M ok s t → ok t a → M.step a t = some u → Path M ok s u

/-- The states on a path from the initial state. -/
def Reachable (M : TransitionSystem σ ι) (ok : σ → ι → Prop) (s : σ) : Prop :=
  M.Path ok M.init s

/-- An invariant along a path: it holds at the start and every allowed step keeps it. -/
theorem Path.invariant {P : σ → Prop} {s t : σ} (h : M.Path ok s t) (hs : P s)
    (hstep : ∀ s a t, P s → ok s a → M.step a s = some t → P t) : P t := by
  induction h with
  | refl => exact hs
  | tail _ hok hst ih => exact hstep _ _ _ ih hok hst

/-- Two paths in a row are a path. -/
theorem Path.trans {s t u : σ} (h₁ : M.Path ok s t) (h₂ : M.Path ok t u) :
    M.Path ok s u := by
  induction h₂ with
  | refl => exact h₁
  | tail _ ha hst ih => exact ih.tail ha hst

/-- The invariant rule. -/
theorem Reachable.invariant {P : σ → Prop} {s : σ} (h : M.Reachable ok s) (hinit : P M.init)
    (hstep : ∀ s a t, P s → ok s a → M.step a s = some t → P t) : P s :=
  Path.invariant h hinit hstep

/-- The invariant rule relative to a fact `J` that every reachable state is known to
satisfy. The step may use `J` before and after. -/
theorem Reachable.invariant_of {J P : σ → Prop} {s : σ} (h : M.Reachable ok s)
    (hJ : ∀ s, M.Reachable ok s → J s) (hinit : P M.init)
    (hstep : ∀ s a t, J s → J t → P s → ok s a → M.step a s = some t → P t) : P s := by
  have key : ∀ t, M.Path ok M.init t → P t := by
    intro t ht
    induction ht with
    | refl => exact hinit
    | tail hp ha hst ih => exact hstep _ _ _ (hJ _ hp) (hJ _ (hp.tail ha hst)) ih ha hst
  exact key s h

/-- A guard may be replaced by one that allows every step that is taken. -/
theorem Reachable.mono {ok' : σ → ι → Prop} {s : σ} (h : M.Reachable ok s)
    (himp : ∀ s a, M.Reachable ok s → ok s a → ok' s a) : M.Reachable ok' s := by
  have key : ∀ t, M.Path ok M.init t → M.Path ok' M.init t := by
    intro t ht
    induction ht with
    | refl => exact .refl
    | tail hp ha hst ih => exact ih.tail (himp _ _ hp ha) hst
  exact key s h

/-- The state after a list of labels. `none` when a label is not enabled, or not allowed,
where it is taken. -/
def run (M : TransitionSystem σ ι) (ok : σ → ι → Prop) [DecidableRel ok] :
    List ι → σ → Option σ
  | [], s => some s
  | a :: rest, s => if ok s a then (M.step a s).bind (run M ok rest) else none

/-- A run that goes on by one label. -/
theorem run_concat [DecidableRel ok] (labels : List ι) (a : ι) {s u : σ} :
    M.run ok (labels ++ [a]) s = some u ↔
      ∃ t, M.run ok labels s = some t ∧ ok t a ∧ M.step a t = some u := by
  induction labels generalizing s with
  | nil =>
    show (if ok s a then (M.step a s).bind some else none) = some u ↔ _
    rw [Option.bind_fun_some]
    constructor
    · intro h
      split at h
      · rename_i hok
        exact ⟨s, rfl, hok, h⟩
      · cases h
    · rintro ⟨t, ht, hok, hstep⟩
      obtain rfl := Option.some.inj ht
      rw [if_pos hok, hstep]
  | cons b rest ih =>
    simp only [List.cons_append, run]
    split
    · simp only [Option.bind_eq_some_iff, ih]
      constructor
      · rintro ⟨v, hv, t, ht, hlast⟩
        exact ⟨t, ⟨v, hv, ht⟩, hlast⟩
      · rintro ⟨t, ⟨v, hv, ht⟩, hlast⟩
        exact ⟨v, hv, t, ht, hlast⟩
    · simp

/-- The states of a run are connected by a path. -/
theorem path_of_run [DecidableRel ok] (labels : List ι) {s t : σ}
    (h : M.run ok labels s = some t) : M.Path ok s t := by
  induction labels generalizing s with
  | nil =>
    cases h
    exact .refl
  | cons a rest ih =>
    simp only [run] at h
    split at h
    · rename_i hok
      obtain ⟨u, hu, hrest⟩ := Option.bind_eq_some_iff.mp h
      exact (Path.refl.tail hok hu).trans (ih hrest)
    · cases h

/-- The end of an evaluated run from the initial state is reachable. -/
theorem reachable_of_run [DecidableRel ok] (labels : List ι) {s : σ}
    (h : M.run ok labels M.init = some s) : M.Reachable ok s :=
  path_of_run labels h

/-- A run that ends in a state with a decidable property gives a reachable state with that
property. The form a closed counterexample takes. -/
theorem exists_reachable_of_run (M : TransitionSystem σ ι) (ok : σ → ι → Prop) [DecidableRel ok]
    (labels : List ι) {P : σ → Prop}
    (h : ∃ s ∈ M.run ok labels M.init, P s) : ∃ s, M.Reachable ok s ∧ P s := by
  obtain ⟨s, hs, hP⟩ := h
  exact ⟨s, reachable_of_run labels hs, hP⟩

end TransitionSystem

end Lib
