import FrontierSim.Lib.PlayoutBuffer
import Mathlib.Algebra.Order.BigOperators.Group.List
import Mathlib.Order.Bounds.Defs
import Mathlib.Tactic.Abel

/-!
# Players and delivery curves

A `Player` plays from a playout buffer, and waits for `startup` again each time the buffer
runs dry. Two things happen to it: time passes (`drain`) and content arrives (`receive`).
Draining in two pieces is draining at once (`drain_drain`), also when the buffer runs dry on
the way, and receiving in two pieces is receiving at once (`receive_receive`).

`delivered es t` is what has arrived at the time `t`. By the two laws it is all that counts:
arrivals in the order of their times that deliver the same by every time take a player to
the same state (`runTo_eq_of_delivered`), however they are split, merged or padded with
arrivals of nothing.

The last part says what survival is worth. Playback starts at the first time by which enough has
arrived (`isLeast_startTime`), and from then on what is played at any time had arrived before that
time (`Survives.exists_start`).
-/

set_option autoImplicit false

namespace Lib

variable {K : Type} [AddCommGroup K] [LinearOrder K]

/-- A player: what it has in the buffer, whether it plays, and how often it ran dry. -/
structure Player (K : Type) where
  level : K
  playing : Bool
  dry : Nat

namespace Player

variable (B : PlayoutBuffer K)

/-- Time passes. A player that plays takes it out of the buffer. -/
def drain (p : Player K) (d : K) : Player K :=
  if p.playing then
    if p.level < d then ⟨0, false, p.dry + 1⟩ else { p with level := p.level - d }
  else p

/-- Content arrives. A player that waits may start. -/
def receive (p : Player K) (amount : K) : Player K where
  level := min (p.level + amount) B.cap
  playing := p.playing || decide (B.startup ≤ min (p.level + amount) B.cap)
  dry := p.dry

/-- The player after the arrivals, from the time `now` on. -/
def run : (now : K) → Player K → List (Arrival K) → Player K
  | _, p, [] => p
  | now, p, e :: rest => run e.time ((p.drain (e.time - now)).receive B e.amount) rest

/-- The player after the arrivals and the time up to `last`. -/
def runTo (last : K) : (now : K) → Player K → List (Arrival K) → Player K
  | now, p, [] => p.drain (last - now)
  | now, p, e :: rest => runTo last e.time ((p.drain (e.time - now)).receive B e.amount) rest

/-- The buffer is within its bounds, and a player that could start has started. -/
structure Settled (p : Player K) : Prop where
  nonneg : 0 ≤ p.level
  le_cap : p.level ≤ B.cap
  waiting : p.playing = false → p.level < B.startup

variable {B} {p : Player K} {a b now last t : K} {e : Arrival K} {es es' : List (Arrival K)}

/-! ### The two laws -/

/-- A player that waits uses nothing. -/
theorem drain_of_waiting (h : p.playing = false) (d : K) : p.drain d = p := by
  rw [drain, h]
  rfl

/-- When no time passes, nothing is played. -/
theorem drain_zero (h : 0 ≤ p.level) : p.drain 0 = p := by
  unfold drain
  split
  · rw [if_neg (not_lt.mpr h), sub_zero]
  · rfl

/-- Where a player waits for the first arrival, it does not matter since when. -/
theorem run_of_waiting (h : p.playing = false) (now now' : K) (es : List (Arrival K)) :
    run B now p es = run B now' p es := by
  cases es with
  | nil => rfl
  | cons e rest => rw [run, run, drain_of_waiting h, drain_of_waiting h]

variable [IsOrderedAddMonoid K]

/-- A buffer that runs dry in the first piece stays empty in the second. -/
theorem drain_drain (hb : 0 ≤ b) : (p.drain a).drain b = p.drain (a + b) := by
  cases hplaying : p.playing with
  | false => rw [drain_of_waiting hplaying, drain_of_waiting hplaying, drain_of_waiting hplaying]
  | true =>
    rcases lt_or_ge p.level a with hdry | hle
    · have hdry' : p.level < a + b := hdry.trans_le (le_add_of_nonneg_right hb)
      simp [drain, hplaying, hdry, hdry']
    · have hiff : p.level - a < b ↔ p.level < a + b := sub_lt_iff_lt_add'
      simp [drain, hplaying, not_lt.mpr hle, hiff, sub_sub]

/-- Two arrivals at the same time are one. A cap that cuts the first one off cuts off the sum as
well, and a start at the first one is a start at the sum. -/
theorem receive_receive (hb : 0 ≤ b) : (p.receive B a).receive B b = p.receive B (a + b) := by
  have hlevel : min (min (p.level + a) B.cap + b) B.cap = min (p.level + (a + b)) B.cap := by
    rw [← add_assoc]
    rcases le_total (p.level + a) B.cap with hle | hge
    · rw [min_eq_left hle]
    · rw [min_eq_right hge, min_eq_right (le_add_of_nonneg_right hb),
        min_eq_right (hge.trans (le_add_of_nonneg_right hb))]
  have hstart : B.startup ≤ min (p.level + a) B.cap →
      B.startup ≤ min (p.level + (a + b)) B.cap := fun h =>
    h.trans (min_le_min_right _ (add_le_add_right (le_add_of_nonneg_right hb) _))
  unfold receive
  simp only [hlevel, Bool.or_assoc, ← Bool.decide_or, or_iff_right_of_imp hstart]

omit [IsOrderedAddMonoid K] in
/-- An arrival of nothing changes nothing, since a player that could start has started. -/
theorem receive_zero (h : p.Settled B) : p.receive B 0 = p := by
  have hlevel : min (p.level + 0) B.cap = p.level := by rw [add_zero, min_eq_left h.le_cap]
  have hplaying : (p.playing || decide (B.startup ≤ p.level)) = p.playing := by
    cases hwait : p.playing with
    | false => rw [decide_eq_false (not_le.mpr (h.waiting hwait)), Bool.or_false]
    | true => exact Bool.true_or _
  rw [receive, hlevel, hplaying]

/-- Time keeps the player settled. A player that runs dry waits with an empty buffer, which is
below the threshold. -/
theorem Settled.drain (h : p.Settled B) (hstartup : 0 < B.startup) (ha : 0 ≤ a) :
    (p.drain a).Settled B := by
  unfold Player.drain
  split
  · rename_i hplaying
    split
    · exact ⟨le_rfl, B.cap_nonneg, fun _ => hstartup⟩
    · rename_i hle
      refine ⟨sub_nonneg.mpr (not_lt.mp hle), (sub_le_self _ ha).trans h.le_cap, ?_⟩
      exact fun hwait => absurd (hplaying.symm.trans hwait) (by decide)
  · exact h

/-- An arrival keeps the player settled. -/
theorem Settled.receive (h : p.Settled B) (ha : 0 ≤ a) : (p.receive B a).Settled B where
  nonneg := le_min (add_nonneg h.nonneg ha) B.cap_nonneg
  le_cap := min_le_right _ _
  waiting hwait := by
    rw [Player.receive, Bool.or_eq_false_iff, decide_eq_false_iff_not] at hwait
    exact not_le.mp hwait.2

/-! ### Arrivals -/

/-- Before the first arrival nothing happens but time. -/
theorem runTo_of_le (hlast : t ≤ last) (hes : ∀ e ∈ es, t ≤ e.time) :
    runTo B last now p es = runTo B last t (p.drain (t - now)) es := by
  cases es with
  | nil =>
    rw [runTo, runTo, drain_drain (sub_nonneg.mpr hlast), sub_add_sub_cancel']
  | cons e rest =>
    rw [runTo, runTo, drain_drain (sub_nonneg.mpr (hes e List.mem_cons_self)),
      sub_add_sub_cancel']

end Player

/-! ### What has arrived -/

/-- What arrives at the times that satisfy `P`. -/
def arrivedWhen (P : K → Prop) [DecidablePred P] (es : List (Arrival K)) : K :=
  ((es.filter fun e => P e.time).map Arrival.amount).sum

section
variable {P : K → Prop} [DecidablePred P]

/-- The first arrival counts when its time satisfies `P`. -/
theorem arrivedWhen_cons (e : Arrival K) (es : List (Arrival K)) :
    arrivedWhen P (e :: es) = (if P e.time then e.amount else 0) + arrivedWhen P es := by
  unfold arrivedWhen
  by_cases h : P e.time <;> simp [h]

/-- No arrival takes anything away. -/
theorem arrivedWhen_nonneg [IsOrderedAddMonoid K] (es : List (Arrival K)) :
    0 ≤ arrivedWhen P es := by
  refine List.sum_nonneg fun a ha => ?_
  obtain ⟨e, -, rfl⟩ := List.mem_map.mp ha
  exact e.amount_nonneg

end

/-! ### Delivery curves -/

/-- What has arrived at the time `t`. -/
def delivered (es : List (Arrival K)) (t : K) : K :=
  ((es.filter fun e => e.time ≤ t).map Arrival.amount).sum

/-- The first arrival counts when it is not after `t`. -/
theorem delivered_cons (e : Arrival K) (es : List (Arrival K)) (t : K) :
    delivered (e :: es) t = (if e.time ≤ t then e.amount else 0) + delivered es t :=
  arrivedWhen_cons (P := (· ≤ t)) e es

/-- Nothing has arrived before the first arrival. -/
theorem delivered_of_lt {es : List (Arrival K)} {t : K} (h : ∀ e ∈ es, t < e.time) :
    delivered es t = 0 := by
  rw [delivered, List.filter_eq_nil_iff.mpr fun e he => by simpa using h e he]
  rfl

/-- No arrival takes anything away. -/
theorem delivered_nonneg [IsOrderedAddMonoid K] (es : List (Arrival K)) (t : K) :
    0 ≤ delivered es t :=
  arrivedWhen_nonneg (P := (· ≤ t)) es

/-- Arrivals between `now` and `last`, in the order of their times. -/
structure Timed (now last : K) (es : List (Arrival K)) : Prop where
  sorted : es.Pairwise fun a b => a.time ≤ b.time
  now_le : ∀ e ∈ es, now ≤ e.time
  le_last : ∀ e ∈ es, e.time ≤ last

namespace Timed

variable {now last : K} {e : Arrival K} {es : List (Arrival K)}

/-- The rest of the arrivals, from the first one on. -/
theorem tail (h : Timed now last (e :: es)) : Timed e.time last es where
  sorted := (List.pairwise_cons.mp h.sorted).2
  now_le := (List.pairwise_cons.mp h.sorted).1
  le_last e' he' := h.le_last e' (List.mem_cons_of_mem e he')

/-- The first arrival is not after the end. -/
theorem head_le (h : Timed now last (e :: es)) : e.time ≤ last := h.le_last e List.mem_cons_self

/-- The first arrival is not before the beginning. -/
theorem le_head (h : Timed now last (e :: es)) : now ≤ e.time := h.now_le e List.mem_cons_self

/-- Arrivals that all come later than `t`. -/
theorem later (h : Timed now last es) {t : K} (ht : ∀ e ∈ es, t < e.time) : Timed t last es where
  sorted := h.sorted
  now_le e he := (ht e he).le
  le_last := h.le_last

/-- Another first arrival at the same time. -/
theorem replace (h : Timed now last (e :: es)) {e' : Arrival K} (htime : e'.time = e.time) :
    Timed e.time last (e' :: es) where
  sorted := by
    rw [List.pairwise_cons, htime]
    exact List.pairwise_cons.mp h.sorted
  now_le e'' he'' := by
    rcases List.mem_cons.mp he'' with rfl | he''
    · exact htime.ge
    · exact h.tail.now_le e'' he''
  le_last e'' he'' := by
    rcases List.mem_cons.mp he'' with rfl | he''
    · exact htime.le.trans h.head_le
    · exact h.tail.le_last e'' he''

end Timed

/-- What an arrival brings beyond a smaller one at the same time. -/
def Arrival.remainder [IsOrderedAddMonoid K] (e' : Arrival K) {e : Arrival K}
    (hle : e.amount ≤ e'.amount) : Arrival K where
  time := e'.time
  amount := e'.amount - e.amount
  amount_nonneg := sub_nonneg.mpr hle

namespace Player

variable [IsOrderedAddMonoid K] {B : PlayoutBuffer K} {p : Player K} {now last : K}
  {e e' : Arrival K} {es es' : List (Arrival K)}

/-- A first arrival before all of `es'` brings nothing when the curves agree. -/
theorem idle_of_delivered (hcurve : ∀ t, delivered (e :: es) t = delivered es' t)
    (hlater : ∀ x ∈ es', e.time < x.time) :
    e.amount = 0 ∧ ∀ t, delivered es t = delivered es' t := by
  have hzero : e.amount + delivered es e.time = 0 := by
    have h := hcurve e.time
    rwa [delivered_cons, if_pos le_rfl, delivered_of_lt hlater] at h
  have hidle : e.amount = 0 :=
    le_antisymm (hzero ▸ le_add_of_nonneg_right (delivered_nonneg es _)) e.amount_nonneg
  refine ⟨hidle, fun t => ?_⟩
  have h := hcurve t
  rwa [delivered_cons, hidle, ite_self, zero_add] at h

/-- An arrival of nothing is the passing of time. -/
theorem runTo_idle (hstartup : 0 < B.startup) (hp : p.Settled B) (hidle : e.amount = 0)
    (hnow : now ≤ e.time) :
    runTo B last now p (e :: es) = runTo B last e.time (p.drain (e.time - now)) es := by
  rw [runTo, hidle, receive_zero (hp.drain hstartup (sub_nonneg.mpr hnow))]

/-- Two curves that agree still agree when a first arrival is taken from the one, and a first
arrival at the same time in the other is cut down by as much. -/
theorem delivered_remainder (hcurve : ∀ t, delivered (e :: es) t = delivered (e' :: es') t)
    (htime : e.time = e'.time) (hle : e.amount ≤ e'.amount) (t : K) :
    delivered es t = delivered (e'.remainder hle :: es') t := by
  have h := hcurve t
  rw [delivered_cons, delivered_cons, htime] at h
  rw [delivered_cons]
  by_cases ht : e'.time ≤ t
  · rw [if_pos ht, if_pos ht] at h
    rw [if_pos (show (e'.remainder hle).time ≤ t from ht)]
    show delivered es t = e'.amount - e.amount + delivered es' t
    rw [sub_add_eq_add_sub, ← h, add_sub_cancel_left]
  · rw [if_neg ht, if_neg ht, zero_add, zero_add] at h
    rw [if_neg (show ¬ (e'.remainder hle).time ≤ t from ht), zero_add, h]

/-- The larger arrival is the smaller one and the remainder. -/
theorem runTo_remainder (htime : e.time = e'.time) (hle : e.amount ≤ e'.amount)
    (hnonneg : 0 ≤ ((p.drain (e.time - now)).receive B e.amount).level) :
    runTo B last now p (e' :: es') = runTo B last e.time
      ((p.drain (e.time - now)).receive B e.amount) (e'.remainder hle :: es') := by
  rw [runTo, runTo]
  show _ = runTo B last e'.time (((_ : Player K).drain (e'.time - e.time)).receive B
    (e'.amount - e.amount)) es'
  rw [← htime, sub_self, drain_zero hnonneg, receive_receive (sub_nonneg.mpr hle),
    add_sub_cancel]

/-- Two ways to deliver the same. The induction is on both lists together: of two first
arrivals the earlier one brings nothing, and of two at the same time the smaller one is a
part of the other. -/
theorem runTo_eq_of_delivered (hstartup : 0 < B.startup) {n : Nat}
    (hn : es.length + es'.length ≤ n) (hes : Timed now last es) (hes' : Timed now last es')
    (hcurve : ∀ t, delivered es t = delivered es' t) (hlast : now ≤ last) (hp : p.Settled B) :
    runTo B last now p es = runTo B last now p es' := by
  induction n generalizing now p es es' with
  | zero =>
    have hnil : es = [] := List.length_eq_zero_iff.mp (by omega)
    have hnil' : es' = [] := List.length_eq_zero_iff.mp (by omega)
    rw [hnil, hnil']
  | succ n ih =>
    -- The first arrival of one list, when it comes before all of the other list.
    have hidle : ∀ {e : Arrival K} {xs ys : List (Arrival K)},
        (e :: xs).length + ys.length ≤ n + 1 → Timed now last (e :: xs) → Timed now last ys →
        (∀ t, delivered (e :: xs) t = delivered ys t) → (∀ y ∈ ys, e.time < y.time) →
        runTo B last now p (e :: xs) = runTo B last now p ys := by
      intro e xs ys hlen hxs hys hsame hlater
      obtain ⟨hzero, hrest⟩ := idle_of_delivered hsame hlater
      have hpos : 0 ≤ e.time - now := sub_nonneg.mpr hxs.le_head
      rw [runTo_idle hstartup hp hzero hxs.le_head,
        runTo_of_le hxs.head_le fun y hy => (hlater y hy).le]
      rw [List.length_cons] at hlen
      exact ih (by omega) hxs.tail (hys.later hlater) hrest hxs.head_le (hp.drain hstartup hpos)
    -- Two first arrivals at the same time, the smaller one in the first list.
    have hsplit : ∀ {e e' : Arrival K} {xs ys : List (Arrival K)},
        (e :: xs).length + (e' :: ys).length ≤ n + 1 → Timed now last (e :: xs) →
        Timed now last (e' :: ys) → (∀ t, delivered (e :: xs) t = delivered (e' :: ys) t) →
        e.time = e'.time → e.amount ≤ e'.amount →
        runTo B last now p (e :: xs) = runTo B last now p (e' :: ys) := by
      intro e e' xs ys hlen hxs hys hsame htime hle
      have hpos : 0 ≤ e.time - now := sub_nonneg.mpr hxs.le_head
      have hsettled := (hp.drain hstartup hpos).receive e.amount_nonneg
      rw [runTo_remainder htime hle hsettled.nonneg]
      refine ih ?_ hxs.tail ?_ (delivered_remainder hsame htime hle) hxs.head_le hsettled
      · simp only [List.length_cons] at hlen ⊢
        omega
      · exact htime ▸ hys.replace rfl
    cases es with
    | nil =>
      cases es' with
      | nil => rfl
      | cons e' ys =>
        refine (hidle ?_ hes' hes (fun t => (hcurve t).symm) ?_).symm
        · omega
        · exact fun y hy => absurd hy List.not_mem_nil
    | cons e xs =>
      cases es' with
      | nil => exact hidle hn hes hes' hcurve fun y hy => absurd hy List.not_mem_nil
      | cons e' ys =>
        rcases lt_trichotomy e.time e'.time with hlt | htime | hgt
        · refine hidle hn hes hes' hcurve fun y hy => ?_
          exact hlt.trans_le ((hes'.replace rfl).now_le y hy)
        · rcases le_total e.amount e'.amount with hle | hge
          · exact hsplit hn hes hes' hcurve htime hle
          · refine (hsplit ?_ hes' hes (fun t => (hcurve t).symm) htime.symm hge).symm
            omega
        · refine (hidle ?_ hes' hes (fun t => (hcurve t).symm) fun y hy => ?_).symm
          · omega
          · exact hgt.trans_le ((hes.replace rfl).now_le y hy)

/-- The player after the last arrival. -/
theorem runTo_getLast (hstartup : 0 < B.startup) (hes : Timed now last es) (hp : p.Settled B)
    (hlast : ∃ e ∈ es.getLast?, e.time = last) : runTo B last now p es = run B now p es := by
  induction es generalizing now p with
  | nil =>
    obtain ⟨e, he, -⟩ := hlast
    cases he
  | cons e rest ih =>
    have hsettled := (hp.drain hstartup (sub_nonneg.mpr hes.le_head)).receive e.amount_nonneg
    rw [runTo, run]
    cases rest with
    | nil =>
      obtain ⟨e', he', htime⟩ := hlast
      obtain rfl : e = e' := Option.some.inj he'
      rw [runTo, ← htime, sub_self, drain_zero hsettled.nonneg]
      rfl
    | cons e' rest =>
      rw [List.getLast?_cons_cons] at hlast
      exact ih hes.tail hsettled hlast

end Player

/-! ### What may be played -/

section Arrived
variable {P : K → Prop} [DecidablePred P] {B : PlayoutBuffer K} {last level t : K}
  {es : List (Arrival K)}

/-- A buffer gains at most what arrives. -/
theorem PlayoutBuffer.fill_le (level : K) (e : Arrival K) : B.fill level e ≤ level + e.amount :=
  min_le_left _ _

variable [IsOrderedAddMonoid K]

namespace PlayoutBuffer

/-- A player that plays on has played at most what it had and what has arrived before. -/
theorem Plays.played_le (h : B.Plays last level es) {e : Arrival K} (he : e ∈ es)
    (ht : t ≤ e.time) : t - last ≤ level + arrivedWhen (· < t) es := by
  induction es generalizing last level with
  | nil => cases he
  | cons first rest ih =>
    obtain ⟨hgap, hrest⟩ := h
    rw [arrivedWhen_cons]
    have hlater := arrivedWhen_nonneg (P := (· < t)) rest
    rcases le_or_gt t first.time with hle | hlt
    · -- Nothing more has arrived, and the level covers the gap.
      rw [if_neg (not_lt.mpr hle), zero_add]
      exact ((sub_le_sub_right hle last).trans hgap).trans (le_add_of_nonneg_right hlater)
    · have hmem : e ∈ rest := by
        rcases List.mem_cons.mp he with rfl | hmem
        · exact absurd ht (not_le.mpr hlt)
        · exact hmem
      have hplayed := ih hrest hmem
      have hfill := B.fill_le (level - (first.time - last)) first
      rw [if_pos hlt]
      have hsum := hplayed.trans (add_le_add_left hfill (arrivedWhen (· < t) rest))
      rw [sub_le_iff_le_add] at hsum ⊢
      refine hsum.trans (le_of_eq ?_)
      abel

/-- When playback starts, enough has arrived. -/
theorem startup_le_of_startTime (hsorted : es.Pairwise fun a b => a.time ≤ b.time) {start : K}
    (h : B.startTime level es = some start) :
    B.startup ≤ level + arrivedWhen (· ≤ start) es := by
  induction es generalizing level with
  | nil => cases h
  | cons first rest ih =>
    obtain ⟨hfirst, hrest⟩ := List.pairwise_cons.mp hsorted
    have hfill := B.fill_le level first
    rw [startTime] at h
    split at h
    · rename_i hgo
      obtain rfl := Option.some.inj h
      rw [arrivedWhen_cons, if_pos le_rfl, ← add_assoc]
      exact (hgo.trans hfill).trans (le_add_of_nonneg_right (arrivedWhen_nonneg _))
    · have hbefore : first.time ≤ start := by
        obtain ⟨e, he, htime⟩ := exists_of_startTime h
        exact htime ▸ hfirst e he
      rw [arrivedWhen_cons, if_pos hbefore, ← add_assoc]
      exact (ih hrest h).trans (add_le_add_left hfill _)

omit [IsOrderedAddMonoid K] in
/-- Before playback starts, not enough has arrived. As long as the player waits, its buffer is
not full, so that it holds all that has arrived. -/
theorem arrived_lt_of_lt_startTime (hcap : B.startup ≤ B.cap) (hwait : level < B.startup)
    (hsorted : es.Pairwise fun a b => a.time ≤ b.time) {start : K}
    (h : B.startTime level es = some start) (ht : t < start) :
    level + arrivedWhen (· ≤ t) es < B.startup := by
  induction es generalizing level with
  | nil => cases h
  | cons first rest ih =>
    obtain ⟨hfirst, hrest⟩ := List.pairwise_cons.mp hsorted
    rcases lt_or_ge t first.time with hearly | hle
    · -- Nothing has arrived yet.
      have hnone : arrivedWhen (· ≤ t) (first :: rest) = 0 := by
        refine delivered_of_lt fun e he => ?_
        rcases List.mem_cons.mp he with rfl | he
        · exact hearly
        · exact hearly.trans_le (hfirst e he)
      rwa [hnone, add_zero]
    · rw [startTime] at h
      split at h
      · exact absurd (hle.trans_lt ht) (Option.some.inj h).not_lt
      · rename_i hgo
        have hlevel : B.fill level first = level + first.amount := by
          rcases min_choice (level + first.amount) B.cap with hopen | hfull
          · exact hopen
          · exact absurd (hcap.trans hfull.ge) hgo
        rw [arrivedWhen_cons, if_pos hle, ← add_assoc, ← hlevel]
        exact ih (not_le.mp hgo) hrest h

/-- Playback starts at the first time by which enough has arrived. -/
theorem isLeast_startTime (hcap : B.startup ≤ B.cap) (hwait : level < B.startup)
    (hsorted : es.Pairwise fun a b => a.time ≤ b.time) {start : K}
    (h : B.startTime level es = some start) :
    IsLeast {t | B.startup ≤ level + arrivedWhen (· ≤ t) es} start := by
  refine ⟨startup_le_of_startTime hsorted h, fun t ht => ?_⟩
  by_contra hearly
  exact absurd (arrived_lt_of_lt_startTime hcap hwait hsorted h (not_le.mp hearly)) (not_lt.mpr ht)

/-- A player that survives starts, and from there on it has played, at every time up to the last
arrival, at most what had arrived before. -/
theorem Survives.exists_start (h : B.Survives level es) (hlevel : 0 ≤ level)
    (hsorted : es.Pairwise fun a b => a.time ≤ b.time) :
    ∃ start, B.startTime level es = some start ∧
      ∀ e ∈ es, ∀ t, start ≤ t → t ≤ e.time → t - start ≤ level + arrivedWhen (· < t) es := by
  induction es generalizing level with
  | nil => exact h.elim
  | cons first rest ih =>
    obtain ⟨hfirst, hrestSorted⟩ := List.pairwise_cons.mp hsorted
    have hfill := B.fill_le level first
    rw [Survives] at h
    rw [startTime]
    -- At the start itself nothing has been played.
    have hstart : ∀ t, t - t ≤ level + arrivedWhen (· < t) (first :: rest) := by
      intro t
      rw [sub_self]
      exact add_nonneg hlevel (arrivedWhen_nonneg _)
    by_cases hgo : B.startup ≤ B.fill level first
    · rw [if_pos hgo] at h ⊢
      refine ⟨first.time, rfl, fun e he t hfrom hto => ?_⟩
      rcases hfrom.eq_or_lt with rfl | hlt
      · exact hstart _
      rcases List.mem_cons.mp he with rfl | he
      · exact absurd hto (not_le.mpr hlt)
      · rw [arrivedWhen_cons, if_pos hlt, ← add_assoc]
        exact (h.played_le he hto).trans (add_le_add_left hfill _)
    · rw [if_neg hgo] at h ⊢
      obtain ⟨start, hsome, hplayed⟩ := ih h (fill_nonneg hlevel first) hrestSorted
      have hbefore : first.time ≤ start := by
        obtain ⟨e, he, htime⟩ := exists_of_startTime hsome
        exact htime ▸ hfirst e he
      refine ⟨start, hsome, fun e he t hfrom hto => ?_⟩
      rcases hfrom.eq_or_lt with rfl | hlt
      · exact hstart _
      rcases List.mem_cons.mp he with rfl | he
      · exact absurd (hto.trans hbefore) (not_le.mpr hlt)
      · rw [arrivedWhen_cons, if_pos (hbefore.trans_lt hlt), ← add_assoc]
        exact (hplayed e he t hfrom hto).trans (add_le_add_left hfill _)

end PlayoutBuffer

end Arrived

end Lib
