import Mathlib.Algebra.Order.Group.MinMax
import Mathlib.Data.List.Pairwise

/-!
# A playout buffer

A player receives content in arrivals and plays it. The content in the buffer is measured
in playing time, so that playback drains one unit per unit of time. The player waits until
the buffer holds `startup` and then plays. The buffer never holds more than `cap`.

* `Plays`: playback, once it runs, never finds the buffer empty.
* `Survives`: playback starts, and plays from there on.
* `startTime`: the arrival at which playback starts.

More content does not hurt a player that is playing (`Plays.mono`). It can hurt one that is
waiting, which then starts earlier and has to last through a gap that it would have waited
out. `Survives.mono` compares two players that start at the same time.
-/

set_option autoImplicit false

namespace Lib

/-- Content that arrives at a time. -/
structure Arrival (K : Type) [Zero K] [LE K] where
  time : K
  amount : K
  amount_nonneg : 0 ≤ amount

/-- The two limits of a player, in playing time: how much it needs to start, and how much it can
hold. -/
structure PlayoutBuffer (K : Type) [Zero K] [LE K] where
  startup : K
  cap : K
  cap_nonneg : 0 ≤ cap

variable {K : Type} [AddCommGroup K] [LinearOrder K]

/-- The same time, and at least as much content. -/
structure Arrival.AtMost (e e' : Arrival K) : Prop where
  time_eq : e'.time = e.time
  amount_le : e.amount ≤ e'.amount

namespace PlayoutBuffer

variable (B : PlayoutBuffer K)

/-- The level after an arrival. -/
def fill (level : K) (e : Arrival K) : K := min (level + e.amount) B.cap

/-- The buffer covers every gap between arrivals. -/
def Plays : (last level : K) → List (Arrival K) → Prop
  | _, _, [] => True
  | last, level, e :: rest =>
    e.time - last ≤ level ∧ Plays e.time (B.fill (level - (e.time - last)) e) rest

/-- Playback starts and then plays. -/
def Survives : (level : K) → List (Arrival K) → Prop
  | _, [] => False
  | level, e :: rest =>
    if B.startup ≤ B.fill level e then B.Plays e.time (B.fill level e) rest
    else Survives (B.fill level e) rest

/-- The time of the arrival at which playback starts. -/
def startTime : (level : K) → List (Arrival K) → Option K
  | _, [] => none
  | level, e :: rest =>
    if B.startup ≤ B.fill level e then some e.time else startTime (B.fill level e) rest

variable {B} {last level level' now : K} {e e' : Arrival K} {es es' : List (Arrival K)}

/-- Playback starts at the time of an arrival. -/
theorem exists_of_startTime (h : B.startTime level es = some now) : ∃ e ∈ es, e.time = now := by
  induction es generalizing level with
  | nil => cases h
  | cons e rest ih =>
    rw [startTime] at h
    split at h
    · exact ⟨e, List.mem_cons_self, Option.some.inj h⟩
    · obtain ⟨e', he', htime⟩ := ih h
      exact ⟨e', List.mem_cons_of_mem e he', htime⟩

/-! ### The end of the arrivals -/

/-- A player that plays on through all arrivals plays on through the first ones. -/
theorem Plays.of_append (h : B.Plays last level (es ++ es')) : B.Plays last level es := by
  induction es generalizing last level with
  | nil => trivial
  | cons e rest ih => exact ⟨h.1, ih h.2⟩

/-- An arrival that comes earlier at the end of playback leaves less to play. -/
theorem Plays.earlier [IsOrderedAddMonoid K] (h : B.Plays last level (es ++ [e']))
    (htime : e.time ≤ e'.time) : B.Plays last level (es ++ [e]) := by
  induction es generalizing last level with
  | nil => exact ⟨(sub_le_sub_right htime last).trans h.1, trivial⟩
  | cons _ rest ih => exact ⟨h.1, ih h.2⟩

/-- A player that survives up to an arrival without content started before it. -/
theorem Survives.of_append_idle (h : B.Survives level (es ++ [e])) (hidle : e.amount = 0)
    (hwait : level < B.startup) : B.Survives level es := by
  induction es generalizing level with
  | nil =>
    have hnot : ¬ B.startup ≤ B.fill level e := by
      rw [fill, hidle, add_zero]
      exact not_le.mpr ((min_le_left _ _).trans_lt hwait)
    rw [List.nil_append, Survives, if_neg hnot] at h
    exact h
  | cons e' rest ih =>
    rw [List.cons_append, Survives] at h
    rw [Survives]
    split at h
    · rename_i hgo
      rw [if_pos hgo]
      exact h.of_append
    · rename_i hgo
      rw [if_neg hgo]
      exact ih h (not_le.mp hgo)

/-- The last arrival may come earlier, with the same content: it is the end of playback, and there
is less to play until then. -/
theorem Survives.earlier [IsOrderedAddMonoid K] (h : B.Survives level (es ++ [e']))
    (htime : e.time ≤ e'.time) (hamount : e.amount = e'.amount) :
    B.Survives level (es ++ [e]) := by
  induction es generalizing level with
  | nil =>
    have hfill : B.fill level e = B.fill level e' := by rw [fill, hamount, fill]
    rw [List.nil_append, Survives] at h ⊢
    rw [hfill]
    split at h
    · rename_i hgo
      rw [if_pos hgo]
      trivial
    · exact absurd h id
  | cons _ rest ih =>
    rw [List.cons_append, Survives] at h ⊢
    split at h
    · rename_i hgo
      rw [if_pos hgo]
      exact h.earlier htime
    · rename_i hgo
      rw [if_neg hgo]
      exact ih h

/-! ### Two players -/

variable [IsOrderedAddMonoid K]

/-- More in the buffer and more in the arrival give more after it. -/
theorem fill_mono (hlevel : level ≤ level') (he : e.AtMost e') :
    B.fill level e ≤ B.fill level' e' :=
  min_le_min_right B.cap (add_le_add hlevel he.amount_le)

/-- An arrival leaves nothing negative. -/
theorem fill_nonneg (hlevel : 0 ≤ level) (e : Arrival K) : 0 ≤ B.fill level e :=
  le_min (add_nonneg hlevel e.amount_nonneg) B.cap_nonneg

/-- More content does not stop a player that is playing. -/
theorem Plays.mono (h : B.Plays last level es) (hes : List.Forall₂ Arrival.AtMost es es')
    (hlevel : level ≤ level') : B.Plays last level' es' := by
  induction hes generalizing last level level' with
  | nil => trivial
  | cons he _ ih =>
    obtain ⟨hgap, hrest⟩ := h
    rw [Plays, he.time_eq]
    refine ⟨hgap.trans hlevel, ih hrest ?_⟩
    exact fill_mono (sub_le_sub_right hlevel _) he

/-- Two players at the time at which one of them starts. The other one plays already, with
at least as much in its buffer, and nothing drains until the first one starts. -/
theorem Survives.plays (h : B.Survives level es) (hstart : B.startTime level es = some now)
    (hsorted : es.Pairwise fun a b => a.time ≤ b.time) (hnow : ∀ e ∈ es, now ≤ e.time)
    (hes : List.Forall₂ Arrival.AtMost es es') (hlevel : level ≤ level') (hpos : 0 ≤ level') :
    B.Plays now level' es' := by
  induction hes generalizing level level' with
  | nil => trivial
  | @cons e e' es es' he hrest ih =>
    -- No arrival is before `now`, and the start is not before the first one.
    have htime : e.time = now := by
      obtain ⟨first, hfirst, heq⟩ := exists_of_startTime hstart
      refine le_antisymm ?_ (hnow e List.mem_cons_self)
      rcases List.mem_cons.mp hfirst with rfl | hfirst
      · exact heq.le
      · exact heq ▸ (List.pairwise_cons.mp hsorted).1 first hfirst
    -- Nothing drains between `now` and this arrival.
    rw [Plays, he.time_eq, htime, sub_self, sub_zero]
    refine ⟨hpos, ?_⟩
    rw [Survives] at h
    rw [startTime] at hstart
    split at h
    · rw [htime] at h
      exact h.mono hrest (fill_mono hlevel he)
    · rename_i hwait
      rw [if_neg hwait] at hstart
      exact ih h hstart (List.pairwise_cons.mp hsorted).2
        (fun e he => hnow e (List.mem_cons_of_mem _ he)) (fill_mono hlevel he)
        (fill_nonneg hpos e')

/-- A player with more content that starts at the same time survives as well. -/
theorem Survives.mono (h : B.Survives level es)
    (hstart : B.startTime level' es' = B.startTime level es)
    (hsorted : es.Pairwise fun a b => a.time ≤ b.time)
    (hes : List.Forall₂ Arrival.AtMost es es') (hlevel : level ≤ level') (hpos : 0 ≤ level') :
    B.Survives level' es' := by
  induction hes generalizing level level' with
  | nil => exact h
  | @cons e e' es es' he hrest ih =>
    have hfill : B.fill level e ≤ B.fill level' e' := fill_mono hlevel he
    have hrestSorted := (List.pairwise_cons.mp hsorted).2
    rw [Survives] at h ⊢
    rw [startTime, startTime] at hstart
    by_cases hgo : B.startup ≤ B.fill level e
    · -- Both start here.
      rw [if_pos (hgo.trans hfill), he.time_eq]
      rw [if_pos hgo] at h
      exact h.mono hrest hfill
    · rw [if_neg hgo] at h hstart
      split
      · -- The player with more content starts here, and the other one at the same time.
        rename_i hgo'
        rw [if_pos hgo'] at hstart
        rw [he.time_eq] at hstart ⊢
        exact h.plays hstart.symm hrestSorted (List.pairwise_cons.mp hsorted).1 hrest hfill
          (fill_nonneg hpos e')
      · rename_i hgo'
        rw [if_neg hgo'] at hstart
        exact ih h hstart hrestSorted hfill (fill_nonneg hpos e')

end PlayoutBuffer

end Lib
