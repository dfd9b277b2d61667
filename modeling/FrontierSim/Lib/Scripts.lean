import FrontierSim.Lib.TransitionSystem
import Mathlib.Data.List.Basic

/-!
# Scripts on a shared store

Some processes share a store. Each of them carries out a script, a list of operations, in any
interleaving with the others. An operation is atomic. The environment may keep an operation from
reaching the store, and the process then goes on with its next one. `log` is history: the
operations that reached the store, with the process of each.

* `store_eq`: the store is what the log makes of the first store.
* `logOf_sublist`: the log of a process is a part of what it has carried out, in order.
* `view_eq`: a view of the store that other processes leave alone is what the process's own
  operations make of it.
-/

set_option autoImplicit false

namespace Lib

/-- The store, the rest of each script, and the history of the store. -/
structure Shared (σ Op : Type) where
  store : σ
  /-- What each process still has to do. -/
  left : List (List Op)
  log : List (Nat × Op)

variable {σ Op τ : Type}

/-- The operations of process `i` that reached the store. -/
def Shared.logOf (s : Shared σ Op) (i : Nat) : List Op :=
  (s.log.filter fun e => e.1 = i).map Prod.snd

/-- Process `i` takes its next operation. The flag says whether it reaches the store. -/
def Shared.turn (exec : σ → Op → σ) (s : Shared σ Op) (i : Nat) (reaches : Bool) :
    Option (Shared σ Op) :=
  match s.left[i]? with
  | some (op :: rest) =>
    some {
      store := if reaches then exec s.store op else s.store
      left := s.left.set i rest
      log := if reaches then s.log ++ [(i, op)] else s.log }
  | _ => none

/-- The processes with their scripts, as a transition system. A label says whose turn it is and
whether the operation reaches the store. -/
def shared (exec : σ → Op → σ) (start : σ) (scripts : List (List Op)) :
    TransitionSystem (Shared σ Op) (Nat × Bool) where
  init := ⟨start, scripts, []⟩
  step := fun (i, reaches) s => s.turn exec i reaches

namespace Shared

variable {exec : σ → Op → σ} {start : σ} {scripts : List (List Op)} {s t : Shared σ Op}
  {ok : Shared σ Op → Nat × Bool → Prop} {i : Nat} {reaches : Bool}

/-- What a turn does: a script gets shorter by its first operation, and either that operation
reaches the store and the log, or neither changes. -/
theorem turn_eq_some (h : s.turn exec i reaches = some t) : ∃ op rest,
    s.left[i]? = some (op :: rest) ∧ t.left = s.left.set i rest ∧
    ((t.store = exec s.store op ∧ t.log = s.log ++ [(i, op)]) ∨
      (t.store = s.store ∧ t.log = s.log)) := by
  unfold turn at h
  split at h
  · rename_i op rest hleft
    cases h
    refine ⟨op, rest, hleft, rfl, ?_⟩
    cases reaches with
    | true => exact Or.inl ⟨rfl, rfl⟩
    | false => exact Or.inr ⟨rfl, rfl⟩
  · cases h

/-- The store is what the log makes of the first store. -/
theorem store_eq (h : (shared exec start scripts).Reachable ok s) :
    s.store = s.log.foldl (fun st e => exec st e.2) start := by
  refine h.invariant (P := fun s => s.store = s.log.foldl (fun st e => exec st e.2) start) rfl ?_
  rintro s ⟨i, reaches⟩ t hs - hst
  obtain ⟨op, rest, -, -, ⟨hstore, hlog⟩ | ⟨hstore, hlog⟩⟩ := turn_eq_some hst
  · rw [hstore, hlog, List.foldl_append, ← hs]
    rfl
  · rw [hstore, hlog, hs]

/-- An invariant of the store alone. -/
theorem store_invariant {P : σ → Prop} (h : (shared exec start scripts).Reachable ok s)
    (hstart : P start) (hexec : ∀ st op, P st → P (exec st op)) : P s.store := by
  refine h.invariant (P := fun s => P s.store) hstart ?_
  rintro s ⟨i, reaches⟩ t hs - hst
  obtain ⟨op, rest, -, -, ⟨hstore, -⟩ | ⟨hstore, -⟩⟩ := turn_eq_some hst
  · exact hstore ▸ hexec s.store op hs
  · exact hstore ▸ hs

/-- What a process has carried out, and what of it reached the store. -/
theorem logOf_sublist (h : (shared exec start scripts).Reachable ok s) {script : List Op}
    (hi : scripts[i]? = some script) :
    ∃ done left, s.left[i]? = some left ∧ script = done ++ left ∧ (s.logOf i).Sublist done := by
  refine h.invariant (P := fun s => ∃ done left, s.left[i]? = some left ∧
    script = done ++ left ∧ (s.logOf i).Sublist done) ⟨[], script, hi, rfl, .slnil⟩ ?_
  rintro s ⟨j, reaches⟩ t ⟨done, left, hleft, hscript, hsub⟩ - hst
  obtain ⟨op, rest, hj, hset, hcases⟩ := turn_eq_some hst
  by_cases hji : j = i
  · subst hji
    have hcons : left = op :: rest := Option.some.inj (hleft.symm.trans hj)
    refine ⟨done ++ [op], rest, ?_, by rw [hscript, hcons, List.append_assoc]; rfl, ?_⟩
    · rw [hset, List.getElem?_set_self (List.getElem?_eq_some_iff.mp hj).1]
    · rcases hcases with ⟨-, hlog⟩ | ⟨-, hlog⟩
      · rw [logOf, hlog]
        simpa [logOf] using hsub.append (List.Sublist.refl [op])
      · rw [logOf, hlog]
        exact hsub.trans (List.sublist_append_left done [op])
  · refine ⟨done, left, by rw [hset, List.getElem?_set_ne hji, hleft], hscript, ?_⟩
    have hsame : t.logOf i = s.logOf i := by
      rcases hcases with ⟨-, hlog⟩ | ⟨-, hlog⟩ <;> simp [logOf, hlog, hji]
    rwa [hsame]

/-- An operation in the log comes from the script of its process. -/
theorem mem_script_of_mem_log (h : (shared exec start scripts).Reachable ok s) {op : Op}
    (hmem : (i, op) ∈ s.log) : ∃ script, scripts[i]? = some script ∧ op ∈ script := by
  have hlength : s.left.length = scripts.length ∧ ∀ e ∈ s.log, e.1 < scripts.length := by
    refine h.invariant (P := fun s => s.left.length = scripts.length ∧
      ∀ e ∈ s.log, e.1 < scripts.length) ⟨rfl, fun e he => absurd he List.not_mem_nil⟩ ?_
    rintro s ⟨j, reaches⟩ t ⟨hlength, hlog⟩ - hst
    obtain ⟨op, rest, hj, hset, hcases⟩ := turn_eq_some hst
    refine ⟨by rw [hset, List.length_set, hlength], ?_⟩
    have hlt : j < scripts.length := hlength ▸ (List.getElem?_eq_some_iff.mp hj).1
    rcases hcases with ⟨-, heq⟩ | ⟨-, heq⟩
    · intro e he
      rw [heq] at he
      rcases List.mem_append.mp he with he | he
      · exact hlog e he
      · rw [List.mem_singleton.mp he]
        exact hlt
    · rwa [heq]
  have hlt : i < scripts.length := hlength.2 _ hmem
  have hi : scripts[i]? = some scripts[i] := List.getElem?_eq_getElem hlt
  obtain ⟨done, left, -, hscript, hsub⟩ := logOf_sublist h hi
  have hown : op ∈ s.logOf i :=
    List.mem_map.mpr ⟨(i, op), List.mem_filter.mpr ⟨hmem, by simp⟩, rfl⟩
  exact ⟨_, hi, hscript ▸ List.mem_append_left left (hsub.subset hown)⟩

/-! ### Views -/

/-- A view that the operations change on their own account. -/
theorem foldl_view {view : σ → τ} {step : τ → Op → τ}
    (hview : ∀ st op, view (exec st op) = step (view st) op) (log : List (Nat × Op)) (st : σ) :
    view (log.foldl (fun st e => exec st e.2) st)
      = log.foldl (fun v e => step v e.2) (view st) := by
  induction log generalizing st with
  | nil => rfl
  | cons e rest ih => rw [List.foldl_cons, List.foldl_cons, ih, hview]

/-- Operations of other processes that leave a view alone may be skipped. -/
theorem foldl_own {step : τ → Op → τ} {log : List (Nat × Op)}
    (hother : ∀ e ∈ log, e.1 ≠ i → ∀ v, step v e.2 = v) (v : τ) :
    log.foldl (fun v e => step v e.2) v
      = ((log.filter fun e => e.1 = i).map Prod.snd).foldl step v := by
  induction log generalizing v with
  | nil => rfl
  | cons e rest ih =>
    have hrest := ih (fun e he => hother e (List.mem_cons_of_mem _ he))
    by_cases hi : e.1 = i
    · rw [List.foldl_cons, hrest, List.filter_cons_of_pos (by simpa using hi), List.map_cons,
        List.foldl_cons]
    · rw [List.foldl_cons, hother e List.mem_cons_self hi, hrest,
        List.filter_cons_of_neg (by simpa using hi)]

/-- The view of a process that owns it. -/
theorem view_eq (view : σ → τ) (step : τ → Op → τ)
    (hview : ∀ st op, view (exec st op) = step (view st) op)
    (h : (shared exec start scripts).Reachable ok s)
    (hother : ∀ e ∈ s.log, e.1 ≠ i → ∀ v, step v e.2 = v) :
    view s.store = (s.logOf i).foldl step (view start) := by
  rw [store_eq h, foldl_view hview, foldl_own hother, logOf]

/-- A view that nobody changes. -/
theorem view_same (view : σ → τ) (step : τ → Op → τ)
    (hview : ∀ st op, view (exec st op) = step (view st) op)
    (h : (shared exec start scripts).Reachable ok s)
    (hother : ∀ e ∈ s.log, ∀ v, step v e.2 = v) : view s.store = view start := by
  rw [store_eq h, foldl_view hview]
  generalize view start = v
  generalize s.log = log at hother
  induction log generalizing v with
  | nil => rfl
  | cons e rest ih =>
    rw [List.foldl_cons, hother e List.mem_cons_self]
    exact ih v fun e he => hother e (List.mem_cons_of_mem _ he)

end Shared

end Lib
