import Mathlib.Data.Multiset.Filter
import Mathlib.Logic.Relation

/-!
# A shared work queue with retries

Workers take items from a queue, hold them while they work, and commit a result. A commit
has one of three fates: the item is done, it goes back to the queue as a successor with
the same key, or it is given up. `WorkQueue.Step` lists what the workers may do. It also
lets a worker discard a queued item whose key is already done.

The state keeps the commits in order. `Lineage x cs cur` reads the commits `cs` of one
key: they start at the item `x`, each retry hands over to its successor, and `cur` is the
item that is still live at the end (`none` after a final commit).

`Tracked` is the main invariant for initial items with distinct keys. For each initial
item, the commits of its key are a lineage, and the items of that key in the queue and in
the workers' hands are exactly the live item of that lineage. `Tracked.places` reads it as
conservation: each key is in one place, once.

`Covered` is the weaker invariant that holds without distinct keys: no key is lost.
-/

set_option autoImplicit false

namespace Lib

/-- What becomes of an item when the work on it ends. -/
inductive Fate (α : Type)
  | done
  | retry (next : α)
  | givenUp

namespace Fate

variable {α : Type}

/-- The item is complete. -/
def isDone : Fate α → Bool
  | .done => true
  | _ => false

/-- The item is not complete, and nobody will work on it again. -/
def isGivenUp : Fate α → Bool
  | .givenUp => true
  | _ => false

/-- The two fates after which no successor is queued. -/
def isFinal : Fate α → Bool
  | .retry _ => false
  | _ => true

/-- The values of `isDone`, `isGivenUp` and `isFinal` at the three fates. -/
@[simp] theorem isDone_done : (Fate.done : Fate α).isDone = true := rfl
@[simp] theorem isDone_retry (x : α) : (Fate.retry x).isDone = false := rfl
@[simp] theorem isDone_givenUp : (Fate.givenUp : Fate α).isDone = false := rfl
@[simp] theorem isGivenUp_done : (Fate.done : Fate α).isGivenUp = false := rfl
@[simp] theorem isGivenUp_retry (x : α) : (Fate.retry x).isGivenUp = false := rfl
@[simp] theorem isGivenUp_givenUp : (Fate.givenUp : Fate α).isGivenUp = true := rfl
@[simp] theorem isFinal_done : (Fate.done : Fate α).isFinal = true := rfl
@[simp] theorem isFinal_retry (x : α) : (Fate.retry x).isFinal = false := rfl
@[simp] theorem isFinal_givenUp : (Fate.givenUp : Fate α).isFinal = true := rfl

/-- A final fate is done or given up, not both. -/
theorem isFinal_eq (f : Fate α) : f.isFinal = (f.isDone || f.isGivenUp) := by
  cases f <;> rfl

/-- An item that is done has no successor. -/
theorem isFinal_of_isDone {f : Fate α} (h : f.isDone = true) : f.isFinal = true := by
  rw [isFinal_eq, h]
  rfl

end Fate

/-- The end of the work on `item`. `note` is whatever else the worker records. -/
structure Commit (α β : Type) where
  item : α
  note : β
  fate : Fate α

/-- The queued items, the items in the workers' hands, and the commits so far. -/
structure WorkQueue (α β : Type) where
  queue : Multiset α
  held : Multiset α
  log : List (Commit α β)

namespace WorkQueue

variable {α β κ : Type}

section Steps
variable (key : α → κ)

/-- The moves of the workers. -/
inductive Step : WorkQueue α β → WorkQueue α β → Prop
  | take (x : α) (q h : Multiset α) (l : List (Commit α β)) :
      Step ⟨x ::ₘ q, h, l⟩ ⟨q, x ::ₘ h, l⟩
  | discard (x : α) (q h : Multiset α) (l : List (Commit α β))
      (hdone : ∃ c ∈ l, c.fate.isDone = true ∧ key c.item = key x) :
      Step ⟨x ::ₘ q, h, l⟩ ⟨q, h, l⟩
  | close (x : α) (note : β) (fate : Fate α) (q h : Multiset α) (l : List (Commit α β))
      (hfinal : fate.isFinal = true) :
      Step ⟨q, x ::ₘ h, l⟩ ⟨q, h, l ++ [⟨x, note, fate⟩]⟩
  | retry (x : α) (note : β) (y : α) (q h : Multiset α) (l : List (Commit α β))
      (hkey : key y = key x) :
      Step ⟨q, x ::ₘ h, l⟩ ⟨y ::ₘ q, h, l ++ [⟨x, note, .retry y⟩]⟩

/-- Any number of moves. -/
abbrev Steps : WorkQueue α β → WorkQueue α β → Prop :=
  Relation.ReflTransGen (Step key)

variable [DecidableEq κ]

/-- The commits on items with the key `k`, in order. -/
def commitsAt (k : κ) (W : WorkQueue α β) : List (Commit α β) :=
  W.log.filter fun c => key c.item = k

/-- The items with the key `k` in the queue or in a worker's hands. -/
def liveAt (k : κ) (W : WorkQueue α β) : Multiset α :=
  (W.queue + W.held).filter fun x => key x = k

/-- A new commit is the last one of its key, and changes nothing for another key. -/
theorem commitsAt_append (k : κ) (q h : Multiset α) (l : List (Commit α β))
    (c : Commit α β) (q' h' : Multiset α) :
    commitsAt key k ⟨q', h', l ++ [c]⟩
      = commitsAt key k ⟨q, h, l⟩ ++ if key c.item = k then [c] else [] := by
  unfold commitsAt
  rw [List.filter_append]
  congr 1
  by_cases hk : key c.item = k <;> simp [hk]

/-- An item in a worker's hands counts for its own key. The log does not matter. -/
theorem liveAt_held_self (x : α) (q h : Multiset α) (l l' : List (Commit α β)) :
    liveAt key (key x) ⟨q, x ::ₘ h, l⟩ = x ::ₘ liveAt key (key x) ⟨q, h, l'⟩ := by
  simp [liveAt]

/-- An item in a worker's hands does not matter for another key. -/
theorem liveAt_held_of_ne {k : κ} {x : α} (hk : key x ≠ k) (q h : Multiset α)
    (l l' : List (Commit α β)) :
    liveAt key k ⟨q, x ::ₘ h, l⟩ = liveAt key k ⟨q, h, l'⟩ := by
  simp [liveAt, hk]

/-- A queued item counts as a held one. -/
theorem liveAt_queue (k : κ) (x : α) (q h : Multiset α) (l l' : List (Commit α β)) :
    liveAt key k ⟨x ::ₘ q, h, l⟩ = liveAt key k ⟨q, x ::ₘ h, l'⟩ := by
  unfold liveAt
  rw [Multiset.add_cons, Multiset.cons_add]

/-- The live items of a key are those in the queue or in a worker's hands. -/
theorem mem_liveAt {k : κ} {W : WorkQueue α β} {x : α} :
    x ∈ liveAt key k W ↔ (x ∈ W.queue ∨ x ∈ W.held) ∧ key x = k := by
  unfold liveAt
  rw [Multiset.mem_filter, Multiset.mem_add]

end Steps

/-! ### Lineages -/

/-- The commits `cs` start at `x`, and each one is on the item that the one before it
handed over. `cur` is the item that is live after them. -/
inductive Lineage (x : α) : List (Commit α β) → Option α → Prop
  | nil : Lineage x [] (some x)
  | retry {cs : List (Commit α β)} {y z : α} {note : β} :
      Lineage x cs (some y) → Lineage x (cs ++ [⟨y, note, .retry z⟩]) (some z)
  | close {cs : List (Commit α β)} {y : α} {note : β} {fate : Fate α}
      (hfinal : fate.isFinal = true) :
      Lineage x cs (some y) → Lineage x (cs ++ [⟨y, note, fate⟩]) none

namespace Lineage

variable {x : α} {cs : List (Commit α β)} {cur : Option α}

/-- The item of a commit is live before it. -/
theorem take (h : Lineage x cs cur) {i : Nat} {c : Commit α β} (hc : cs[i]? = some c) :
    Lineage x (cs.take i) (some c.item) := by
  -- A commit of an extended lineage is an old one, or the one that extends it.
  have key : ∀ {cs : List (Commit α β)} {d : Commit α β}, Lineage x cs (some d.item) →
      (cs[i]? = some c → Lineage x (cs.take i) (some c.item)) → (cs ++ [d])[i]? = some c →
      Lineage x ((cs ++ [d]).take i) (some c.item) := by
    intro cs d hcs hold hc
    rcases Nat.lt_trichotomy i cs.length with hi | rfl | hi
    · rw [List.getElem?_append_left hi] at hc
      rw [List.take_append_of_le_length (Nat.le_of_lt hi)]
      exact hold hc
    · rw [List.getElem?_concat_length, Option.some.injEq] at hc
      rw [List.take_left' rfl]
      exact hc ▸ hcs
    · rw [List.getElem?_eq_none (by simp; omega)] at hc
      cases hc
  induction h with
  | nil => cases hc
  | retry hcs ih => exact key hcs ih hc
  | close _ hcs ih => exact key hcs ih hc

/-- Before the first commit the item itself is live. -/
theorem eq_of_nil (h : Lineage x ([] : List (Commit α β)) cur) : cur = some x := by
  generalize hl : ([] : List (Commit α β)) = l at h
  cases h with
  | nil => rfl
  | retry => simp at hl
  | close => simp at hl

/-- The live item was handed over by the last commit. -/
theorem fate_last {c : Commit α β} {z : α} (h : Lineage x (cs ++ [c]) (some z)) :
    c.fate = .retry z := by
  -- The lineage grows at its end, so its last constructor tells the last commit.
  generalize hl : cs ++ [c] = l at h
  generalize hz : some z = cur at h
  cases h with
  | nil => simp at hl
  | retry =>
    cases hz
    obtain ⟨-, hc⟩ := List.append_inj' hl rfl
    rw [List.singleton_inj.mp hc]
  | close => cases hz

/-- One final commit when nothing is live, none otherwise. -/
theorem countP_final (h : Lineage x cs cur) :
    cs.countP (fun c => c.fate.isFinal) = if cur.isSome then 0 else 1 := by
  induction h with
  | nil => rfl
  | retry _ ih => simpa [List.countP_append] using ih
  | close hfinal _ ih => simpa [List.countP_append, hfinal] using ih

/-- A lineage with a final commit has no live item. -/
theorem eq_none_of_final (h : Lineage x cs cur) {c : Commit α β} (hc : c ∈ cs)
    (hfinal : c.fate.isFinal = true) : cur = none := by
  have hcount := h.countP_final
  have hpos : 0 < cs.countP (fun c => c.fate.isFinal) := List.countP_pos_iff.mpr ⟨c, hc, hfinal⟩
  cases cur with
  | none => rfl
  | some y =>
    rw [hcount] at hpos
    exact absurd hpos (Nat.lt_irrefl 0)

/-- The first commit is on the item itself. The others start at the item that it hands over, or
there are none. -/
theorem of_cons {c : Commit α β} (h : Lineage x (c :: cs) cur) :
    c.item = x ∧ ((∃ z, c.fate = .retry z ∧ Lineage z cs cur) ∨
      (c.fate.isFinal = true ∧ cs = [] ∧ cur = none)) := by
  generalize hl : c :: cs = l at h
  induction h generalizing cs with
  | nil => cases hl
  | @retry cs' y z note hcs ih =>
    cases cs' with
    | nil =>
      cases hl
      exact ⟨Option.some.inj hcs.eq_of_nil, Or.inl ⟨z, rfl, .nil⟩⟩
    | cons d rest =>
      cases hl
      obtain ⟨hitem, ⟨z', hfate, hrest⟩ | ⟨-, -, hnone⟩⟩ := ih rfl
      · exact ⟨hitem, Or.inl ⟨z', hfate, hrest.retry⟩⟩
      · cases hnone
  | @close cs' y note fate hfinal hcs ih =>
    cases cs' with
    | nil =>
      cases hl
      exact ⟨Option.some.inj hcs.eq_of_nil, Or.inr ⟨hfinal, rfl, rfl⟩⟩
    | cons d rest =>
      cases hl
      obtain ⟨hitem, ⟨z', hfate, hrest⟩ | ⟨-, -, hnone⟩⟩ := ih rfl
      · exact ⟨hitem, Or.inl ⟨z', hfate, hrest.close hfinal⟩⟩
      · cases hnone

/-- A final commit is the last one, and its item was live before it. -/
theorem final_last (h : Lineage x cs cur) {c : Commit α β} (hc : c ∈ cs)
    (hfinal : c.fate.isFinal = true) :
    ∃ pre, cs = pre ++ [c] ∧ Lineage x pre (some c.item) := by
  cases h with
  | nil => cases hc
  | retry hcs =>
    rcases List.mem_append.mp hc with hc | hc
    · cases hcs.eq_none_of_final hc hfinal
    · rw [List.mem_singleton.mp hc] at hfinal
      cases hfinal
  | close _ hcs =>
    rcases List.mem_append.mp hc with hc | hc
    · cases hcs.eq_none_of_final hc hfinal
    · rw [List.mem_singleton.mp hc]
      exact ⟨_, rfl, hcs⟩

end Lineage

/-! ### The invariants -/

section Invariants
variable [DecidableEq κ] (key : α → κ) (items : List α)

/-- Each initial item has a lineage made of the commits of its key, whose live item is the
only item of that key in the queue and in the workers' hands. No other keys occur. -/
structure Tracked (W : WorkQueue α β) : Prop where
  lineage : ∀ x ∈ items, ∃ cur, Lineage x (commitsAt key (key x) W) cur ∧
    liveAt key (key x) W = (cur.toList : Multiset α)
  known : ∀ y, y ∈ W.queue ∨ y ∈ W.held → ∃ x ∈ items, key x = key y
  logged : ∀ c ∈ W.log, ∃ x ∈ items, key x = key c.item

/-- Each initial key is live or has a final commit. -/
def Covered (W : WorkQueue α β) : Prop :=
  ∀ x ∈ items, liveAt key (key x) W ≠ 0 ∨
    ∃ c ∈ W.log, c.fate.isFinal = true ∧ key c.item = key x

/-- The state before the first step. -/
def initial (items : List α) : WorkQueue α β := ⟨items, 0, []⟩

variable {key items}

/-- With distinct keys, only `x` itself has the key of `x`. -/
theorem filter_key_eq (hnodup : (items.map key).Nodup) {x : α} (hx : x ∈ items) :
    items.filter (fun y => key y = key x) = [x] := by
  induction items with
  | nil => cases hx
  | cons y rest ih =>
    rw [List.map_cons, List.nodup_cons] at hnodup
    rcases List.mem_cons.mp hx with rfl | hx
    · -- The head is `x`, and nothing behind it has its key.
      rw [List.filter_cons_of_pos (by simp)]
      congr 1
      rw [List.filter_eq_nil_iff]
      intro z hz hkey
      exact hnodup.1 (List.mem_map.mpr ⟨z, hz, by simpa using hkey⟩)
    · have hne : key y ≠ key x := fun h =>
        hnodup.1 (h ▸ List.mem_map.mpr ⟨x, hx, rfl⟩)
      rw [List.filter_cons_of_neg (by simpa using hne)]
      exact ih hnodup.2 hx

/-- At the start each item waits in the queue with no commit. The keys are distinct, so that it is
the only one of its key. -/
theorem tracked_initial (hnodup : (items.map key).Nodup) :
    Tracked key items (initial items : WorkQueue α β) where
  lineage x hx := by
    refine ⟨some x, .nil, ?_⟩
    simp [liveAt, initial, filter_key_eq hnodup hx]
  known y hy := by
    simp only [initial, Multiset.mem_coe, Multiset.notMem_zero, or_false] at hy
    exact ⟨y, hy, rfl⟩
  logged c hc := absurd hc List.not_mem_nil

/-- A queued or held item is the live item of its lineage. -/
theorem Tracked.lineage_of_mem {W : WorkQueue α β} (hW : Tracked key items W) {x y : α}
    (hx : x ∈ items) (hy : y ∈ W.queue ∨ y ∈ W.held) (hkey : key y = key x) :
    Lineage x (commitsAt key (key x) W) (some y) := by
  obtain ⟨cur, hlin, hlive⟩ := hW.lineage x hx
  have hmem : y ∈ liveAt key (key x) W := (mem_liveAt key).mpr ⟨hy, hkey⟩
  rw [hlive] at hmem
  have hcur : cur = some y := by simpa [eq_comm] using hmem
  exact hcur ▸ hlin

/-- The lineage of a held item's key ends in that item, and nothing else of the key is
live. -/
theorem Tracked.lineage_of_held {x z : α} {q h : Multiset α} {l : List (Commit α β)}
    (hW : Tracked key items ⟨q, x ::ₘ h, l⟩) (hz : z ∈ items) (hk : key x = key z) :
    Lineage z (commitsAt key (key z) ⟨q, x ::ₘ h, l⟩) (some x) ∧
      liveAt key (key z) ⟨q, h, l⟩ = 0 := by
  obtain ⟨cur, hlin, hlive⟩ := hW.lineage z hz
  rw [← hk, liveAt_held_self key x q h l l] at hlive
  cases cur with
  | none => simp at hlive
  | some y =>
    -- The held item is the one live item, and without it nothing is left.
    simp only [Option.toList_some, Multiset.coe_singleton, ← Multiset.cons_zero] at hlive
    have hmem : x ∈ y ::ₘ (0 : Multiset α) := hlive ▸ Multiset.mem_cons_self x _
    have hxy : x = y := by simpa using hmem
    subst hxy
    exact ⟨hlin, hk ▸ (Multiset.cons_inj_right x).mp hlive⟩

/-- A commit on a held item has a known key. -/
theorem Tracked.logged_append {x : α} {q h : Multiset α} {l : List (Commit α β)}
    (hW : Tracked key items ⟨q, x ::ₘ h, l⟩) {c : Commit α β} (hc : c.item = x) :
    ∀ c' ∈ l ++ [c], ∃ z ∈ items, key z = key c'.item := by
  intro c' hc'
  rcases List.mem_append.mp hc' with hc' | hc'
  · exact hW.logged c' hc'
  · rw [List.mem_singleton.mp hc', hc]
    exact hW.known x (Or.inr (Multiset.mem_cons_self x h))

/-- The invariant is kept by every move. Only the lineage of the key that moves changes: a take
leaves its live item live, a retry extends the lineage, and a final commit closes it. -/
theorem Tracked.step {W W' : WorkQueue α β} (hW : Tracked key items W)
    (hstep : Step key W W') : Tracked key items W' := by
  cases hstep with
  | take x q h l =>
    -- A taken item stays live, and no commit is added.
    constructor
    · intro z hz
      rw [← liveAt_queue key (key z) x q h l l]
      exact hW.lineage z hz
    · intro y hy
      refine hW.known y ?_
      simp only [Multiset.mem_cons] at hy ⊢
      tauto
    · exact hW.logged
  | discard x q h l hdone =>
    -- A queued item is live, but the lineage of a key that is done has no live item.
    obtain ⟨c, hc, hisDone, hckey⟩ := hdone
    have hqueued : x ∈ x ::ₘ q ∨ x ∈ h := Or.inl (Multiset.mem_cons_self x q)
    obtain ⟨z, hz, hzkey⟩ := hW.known x hqueued
    have hlin := hW.lineage_of_mem hz hqueued hzkey.symm
    have hmem : c ∈ commitsAt key (key z) ⟨x ::ₘ q, h, l⟩ := by
      simpa [commitsAt] using ⟨hc, hckey.trans hzkey.symm⟩
    cases hlin.eq_none_of_final hmem (Fate.isFinal_of_isDone hisDone)
  | close x note fate q h l hfinal =>
    constructor
    · intro z hz
      rw [commitsAt_append key (key z) q (x ::ₘ h) l]
      by_cases hk : key x = key z
      · -- The lineage of this key ends here.
        obtain ⟨hlin, hlive⟩ := hW.lineage_of_held hz hk
        rw [if_pos hk]
        exact ⟨none, .close hfinal hlin, hlive⟩
      · obtain ⟨cur, hlin, hlive⟩ := hW.lineage z hz
        rw [liveAt_held_of_ne key hk q h l (l ++ [⟨x, note, fate⟩])] at hlive
        rw [if_neg hk, List.append_nil]
        exact ⟨cur, hlin, hlive⟩
    · intro y hy
      exact hW.known y (hy.imp id (Multiset.mem_cons_of_mem))
    · exact hW.logged_append rfl
  | retry x note y q h l hkey =>
    constructor
    · intro z hz
      rw [commitsAt_append key (key z) q (x ::ₘ h) l,
        liveAt_queue key (key z) y q h _ (l ++ [⟨x, note, .retry y⟩])]
      by_cases hk : key x = key z
      · -- The lineage goes on with the successor, which is the live item now.
        obtain ⟨hlin, hlive⟩ := hW.lineage_of_held hz hk
        refine ⟨some y, ?_, ?_⟩
        · rw [if_pos hk]
          exact .retry hlin
        · rw [← hk, ← hkey] at hlive ⊢
          rw [liveAt_held_self key y q h _ l, hlive]
          rfl
      · obtain ⟨cur, hlin, hlive⟩ := hW.lineage z hz
        rw [liveAt_held_of_ne key hk q h l (l ++ [⟨x, note, .retry y⟩])] at hlive
        refine ⟨cur, by rwa [if_neg hk, List.append_nil], ?_⟩
        rwa [liveAt_held_of_ne key (hkey ▸ hk) q h _ (l ++ [⟨x, note, .retry y⟩])]
    · intro w hw
      simp only [Multiset.mem_cons] at hw
      rcases hw with (rfl | hw) | hw
      · -- The successor has the key of the item.
        obtain ⟨x₀, hx₀, hkey₀⟩ := hW.known x (Or.inr (Multiset.mem_cons_self x h))
        exact ⟨x₀, hx₀, hkey₀.trans hkey.symm⟩
      · exact hW.known w (Or.inl hw)
      · exact hW.known w (Or.inr (Multiset.mem_cons_of_mem hw))
    · exact hW.logged_append rfl

/-- The invariant after any number of moves. -/
theorem Tracked.steps {W W' : WorkQueue α β} (hW : Tracked key items W)
    (hsteps : Steps key W W') : Tracked key items W' := by
  induction hsteps with
  | refl => exact hW
  | tail _ hstep ih => exact ih.step hstep

/-- Conservation. Each initial key is in one place, once: queued, held, or closed by one
final commit. -/
theorem Tracked.places {W : WorkQueue α β} (hW : Tracked key items W) {x : α} (hx : x ∈ items) :
    W.queue.countP (key · = key x) + W.held.countP (key · = key x)
      + (commitsAt key (key x) W).countP (fun c => c.fate.isFinal) = 1 := by
  obtain ⟨cur, hlin, hlive⟩ := hW.lineage x hx
  rw [← Multiset.countP_add, Multiset.countP_eq_card_filter, hlin.countP_final]
  have hcard := congrArg Multiset.card hlive
  rw [liveAt] at hcard
  rw [hcard]
  cases cur <;> simp

/-- At the start each key waits in the queue. -/
theorem covered_initial : Covered key items (initial items : WorkQueue α β) := by
  intro x hx
  left
  intro h
  have hmem : x ∈ liveAt key (key x) (initial items : WorkQueue α β) :=
    (mem_liveAt key).mpr ⟨Or.inl (by simpa [initial] using hx), rfl⟩
  rw [h] at hmem
  exact Multiset.notMem_zero x hmem

/-- A commit on an item with another key keeps the key of `z` live, or closed. -/
theorem covered_of_ne {q q' h : Multiset α} {l : List (Commit α β)} {c : Commit α β} {x z : α}
    (hk : key x ≠ key z) (hz : liveAt key (key z) ⟨q, x ::ₘ h, l⟩ ≠ 0 ∨
      ∃ c ∈ l, c.fate.isFinal = true ∧ key c.item = key z)
    (hq : liveAt key (key z) ⟨q', h, l ++ [c]⟩ = liveAt key (key z) ⟨q, h, l⟩) :
    liveAt key (key z) ⟨q', h, l ++ [c]⟩ ≠ 0 ∨
      ∃ c' ∈ l ++ [c], c'.fate.isFinal = true ∧ key c'.item = key z := by
  rw [liveAt_held_of_ne key hk q h l l] at hz
  rw [hq]
  refine hz.imp id ?_
  rintro ⟨c', hc, hfin, hckey⟩
  exact ⟨c', List.mem_append_left _ hc, hfin, hckey⟩

/-- No move loses a key: a retry has the same key, a final commit is in the log, and what is
discarded is done already. -/
theorem Covered.step {W W' : WorkQueue α β} (hW : Covered key items W)
    (hstep : Step key W W') : Covered key items W' := by
  intro z hz
  cases hstep with
  | take x q h l =>
    rw [← liveAt_queue key (key z) x q h l l]
    exact hW z hz
  | discard x q h l hdone =>
    by_cases hk : key x = key z
    · -- What is discarded is done, and done is final.
      obtain ⟨c, hc, hisDone, hckey⟩ := hdone
      exact Or.inr ⟨c, hc, Fate.isFinal_of_isDone hisDone, hckey.trans hk⟩
    · have hz := hW z hz
      rw [liveAt_queue key (key z) x q h l l, liveAt_held_of_ne key hk q h l l] at hz
      exact hz
  | close x note fate q h l hfinal =>
    by_cases hk : key x = key z
    · exact Or.inr ⟨⟨x, note, fate⟩, by simp, hfinal, hk⟩
    · exact covered_of_ne hk (hW z hz) rfl
  | retry x note y q h l hkey =>
    by_cases hk : key x = key z
    · -- The successor is live.
      left
      intro hzero
      have hmem : y ∈ liveAt key (key z) ⟨y ::ₘ q, h, l ++ [⟨x, note, .retry y⟩]⟩ :=
        (mem_liveAt key).mpr ⟨Or.inl (Multiset.mem_cons_self y q), hkey.trans hk⟩
      rw [hzero] at hmem
      exact Multiset.notMem_zero y hmem
    · refine covered_of_ne hk (hW z hz) ?_
      rw [liveAt_queue key (key z) y q h _ l]
      exact liveAt_held_of_ne key (hkey ▸ hk) q h l l

/-- No key is lost after any number of moves. -/
theorem Covered.steps {W W' : WorkQueue α β} (hW : Covered key items W)
    (hsteps : Steps key W W') : Covered key items W' := by
  induction hsteps with
  | refl => exact hW
  | tail _ hstep ih => exact ih.step hstep

end Invariants

end WorkQueue

end Lib
