import FrontierSim.Lib.TransitionSystem
import Mathlib.Order.WellFounded

/-!
# Infinite runs of a transition system, and fairness

A `Run` is an infinite run from any state. `Run.Fair acts idle` is weak fairness towards the
process whose labels are `acts` and which has nothing to do in the states `idle`: from every
time on, the process acts at some time, or is idle.

* `Run.lower_of_fair`: a rank that no step raises and that every action of the process lowers
  gets lower, as long as the process cannot fall idle before.
* `Run.eventually_of_lower`: a rank in a well-founded order that gets lower again and again
  outside the goal leads to the goal.
* `exists_run`: a finite run and an infinite one from its end make an infinite one.
-/

set_option autoImplicit false

namespace Lib

namespace TransitionSystem

variable {σ ι : Type} {M : TransitionSystem σ ι} {ok : σ → ι → Prop}

/-- An infinite run. -/
structure Run (M : TransitionSystem σ ι) (ok : σ → ι → Prop) where
  state : Nat → σ
  label : Nat → ι
  allowed : ∀ n, ok (state n) (label n)
  step : ∀ n, M.step (label n) (state n) = some (state (n + 1))

namespace Run

variable {α : Type} [Preorder α] (r : M.Run ok)

/-- A later state of the run is reached from an earlier one. -/
theorem path {m n : Nat} (h : m ≤ n) : M.Path ok (r.state m) (r.state n) := by
  induction h with
  | refl => exact .refl
  | step _ ih => exact ih.tail (r.allowed _) (r.step _)

/-- The states of a run that starts in a reachable state are reachable. -/
theorem reachable (h : M.Reachable ok (r.state 0)) (n : Nat) : M.Reachable ok (r.state n) :=
  h.trans (r.path (Nat.zero_le n))

/-- What every step of the run keeps from `m` on. -/
theorem invariant {P : σ → Prop} {m n : Nat} (hle : m ≤ n) (hm : P (r.state m))
    (hstep : ∀ k, m ≤ k → P (r.state k) → P (r.state (k + 1))) : P (r.state n) := by
  induction hle with
  | refl => exact hm
  | step hle ih => exact hstep _ hle ih

/-- Weak fairness: again and again the process acts, or has nothing to do. -/
def Fair (acts : ι → Prop) (idle : σ → Prop) : Prop :=
  ∀ n, ∃ m, n ≤ m ∧ (acts (r.label m) ∨ idle (r.state m))

/-- Either the rank got lower on the way, or it is no higher and `P` still holds. -/
theorem lower_or_keep (rank : σ → α) {P : σ → Prop} {m n : Nat} (hle : m ≤ n)
    (hm : P (r.state m))
    (hstep : ∀ k, m ≤ k → P (r.state k) → rank (r.state (k + 1)) < rank (r.state k) ∨
      (rank (r.state (k + 1)) ≤ rank (r.state k) ∧ P (r.state (k + 1)))) :
    (∃ k, m ≤ k ∧ rank (r.state k) < rank (r.state m)) ∨
      (rank (r.state n) ≤ rank (r.state m) ∧ P (r.state n)) := by
  induction hle with
  | refl => exact Or.inr ⟨le_rfl, hm⟩
  | @step n hle ih =>
    rcases ih with hlower | ⟨hrank, hP⟩
    · exact Or.inl hlower
    · rcases hstep n hle hP with hlt | ⟨hrank', hP'⟩
      · exact Or.inl ⟨n + 1, Nat.le_succ_of_le hle, hlt.trans_le hrank⟩
      · exact Or.inr ⟨hrank'.trans hrank, hP'⟩

/-- The rank gets lower by an action of a process that is treated fairly. `P` holds as long as
the rank stays, and the process is not idle where `P` holds. -/
theorem lower_of_fair (rank : σ → α) {acts : ι → Prop} {idle P : σ → Prop} {n : Nat}
    (hfair : r.Fair acts idle) (hn : P (r.state n))
    (hidle : ∀ k, P (r.state k) → ¬ idle (r.state k))
    (hacts : ∀ k, n ≤ k → P (r.state k) → acts (r.label k) →
      rank (r.state (k + 1)) < rank (r.state k))
    (hother : ∀ k, n ≤ k → P (r.state k) → ¬ acts (r.label k) →
      rank (r.state (k + 1)) < rank (r.state k) ∨
        (rank (r.state (k + 1)) ≤ rank (r.state k) ∧ P (r.state (k + 1)))) :
    ∃ m, n ≤ m ∧ rank (r.state m) < rank (r.state n) := by
  obtain ⟨m, hle, hm⟩ := hfair n
  have hstep : ∀ k, n ≤ k → P (r.state k) → rank (r.state (k + 1)) < rank (r.state k) ∨
      (rank (r.state (k + 1)) ≤ rank (r.state k) ∧ P (r.state (k + 1))) := by
    intro k hk hP
    by_cases hlabel : acts (r.label k)
    · exact Or.inl (hacts k hk hP hlabel)
    · exact hother k hk hP hlabel
  rcases r.lower_or_keep rank hle hn hstep with hlower | ⟨hrank, hP⟩
  · exact hlower
  · rcases hm with hlabel | hnothing
    · exact ⟨m + 1, Nat.le_succ_of_le hle, (hacts m hle hP hlabel).trans_le hrank⟩
    · exact absurd hnothing (hidle m hP)

/-- The rank rule. Where the goal is not reached, it is reached later or the rank gets lower.
So it is reached. -/
theorem eventually_of_lower [WellFoundedLT α] (rank : σ → α) {goal : σ → Prop} (start : Nat)
    (hlower : ∀ n, start ≤ n → ¬ goal (r.state n) →
      ∃ m, n ≤ m ∧ (goal (r.state m) ∨ rank (r.state m) < rank (r.state n))) :
    ∃ n, start ≤ n ∧ goal (r.state n) := by
  have key : ∀ (a : α) (n : Nat), start ≤ n → rank (r.state n) = a →
      ∃ m, start ≤ m ∧ goal (r.state m) := by
    intro a
    induction a using WellFoundedLT.induction with
    | ind a ih =>
      intro n hn ha
      by_cases hgoal : goal (r.state n)
      · exact ⟨n, hn, hgoal⟩
      · obtain ⟨m, hnm, hreached | hlt⟩ := hlower n hn hgoal
        · exact ⟨m, hn.trans hnm, hreached⟩
        · exact ih _ (ha ▸ hlt) m (hn.trans hnm) rfl
  exact key _ start le_rfl rfl

/-- One more step at the front of a run. -/
def cons (r : M.Run ok) {s : σ} {a : ι} (hok : ok s a) (hstep : M.step a s = some (r.state 0)) :
    M.Run ok where
  state n := n.casesOn s fun k => r.state k
  label n := n.casesOn a fun k => r.label k
  allowed n := by
    cases n with
    | zero => exact hok
    | succ n => exact r.allowed n
  step n := by
    cases n with
    | zero => exact hstep
    | succ n => exact r.step n

end Run

/-- A finite run followed by an infinite one. -/
theorem exists_run [DecidableRel ok] (tail : M.Run ok) (labels : List ι) {s : σ}
    (h : M.run ok labels s = some (tail.state 0)) :
    ∃ r : M.Run ok, r.state 0 = s ∧ ∀ n, r.state (labels.length + n) = tail.state n ∧
      r.label (labels.length + n) = tail.label n := by
  induction labels generalizing s with
  | nil =>
    refine ⟨tail, (Option.some.inj h).symm, fun n => ?_⟩
    rw [List.length_nil, Nat.zero_add]
    exact ⟨rfl, rfl⟩
  | cons a rest ih =>
    simp only [run] at h
    split at h
    · rename_i hok
      obtain ⟨u, hu, hrest⟩ := Option.bind_eq_some_iff.mp h
      obtain ⟨r, rfl, hr⟩ := ih hrest
      refine ⟨r.cons hok hu, rfl, fun n => ?_⟩
      rw [List.length_cons, Nat.succ_add]
      exact hr n
    · cases h

end TransitionSystem

end Lib
