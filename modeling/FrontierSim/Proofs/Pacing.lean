import FrontierSim.Proofs.Clock
import FrontierSim.Proofs.Shutdown
import FrontierSim.Proofs.Tiling

/-!
# `FrontierSim.Proofs.Pacing`: the attempts for a chunk keep their distance

A retry carries the time before which it is not taken, `retry_after`. The pop section reads
the clock again for every such entry, and the request is announced later still. So the
distance between two attempts for a chunk, as the trace shows it, is at least the backoff
that the commit between them computed (`backoff_honoured`).

`Paced` is the invariant. It says for every announcement that was made, sent or not, that the
entry it is about was ready at that time, and for every retry that its entry waits for the
backoff from that time on.
-/

set_option autoImplicit false

namespace FrontierSim

open Lib

variable {heap : ChunkHeap} {config : ReactorConfig} {chunks : List ChunkRequest}
  {opening : RunStarted} {ok : System → Label → Prop} {s s' : System} {a : Label}

/-! ### Announcements and requests -/

/-- The announcement was sent, or waits in an outbox. -/
def System.Announces (s : System) (e : RequestStarted) : Prop := s.Emitted (.requestStarted e)

/-- A request that a worker works on, or that was committed. -/
def System.Owns (s : System) (req : Request) : Prop :=
  (∃ i, requestAt s.workers i = some req) ∨ ∃ d ∈ s.commits, d.request = req

/-- An event in the trace has been announced. -/
theorem announces_of_mem {e : RequestStarted} (he : e ∈ s.started) : s.Announces e := by
  obtain ⟨event, hevent, hsome⟩ := List.mem_filterMap.mp he
  rw [TraceEvent.started?_eq_some.mp hsome] at hevent
  exact Or.inl hevent

/-- After a step that changes one worker and sends nothing. -/
theorem announces_of_set {i : Nat} {w w' : Worker} {e : RequestStarted}
    (hset : s'.workers = s.workers.set i w') (hevents : s'.events.sent = s.events.sent)
    (hout : w'.outbox = none ∨ s.workers[i]? = some w ∧ w'.outbox = w.outbox)
    (he : s'.Announces e) : s.Announces e := by
  rcases he with hsent | ⟨v, hv, hvout⟩
  · exact Or.inl (hevents ▸ hsent)
  · rw [hset] at hv
    rcases List.mem_or_eq_of_mem_set hv with hv | rfl
    · exact Or.inr ⟨v, hv, hvout⟩
    · rcases hout with hnone | ⟨hw, hsame⟩
      · rw [hnone] at hvout
        cases hvout
      · exact Or.inr ⟨w, List.mem_of_getElem? hw, hsame ▸ hvout⟩

/-- A step makes at most one announcement, when a worker begins a request. -/
theorem announces_cases {e : RequestStarted} (hmoves : Moves heap config s a s')
    (he : s'.Announces e) :
    s.Announces e ∨ ∃ (i : Nat) (w : Worker) (req : Request), s.workers[i]? = some w ∧
      w.phase = .assigned req ∧ e = req.started s.now ∧ s'.commits = s.commits ∧
      s'.now = s.now ∧ s'.nextRequestId = s.nextRequestId := by
  have hkeep : ∀ {i : Nat} {w w' : Worker}, s.workers[i]? = some w →
      s'.workers = s.workers.set i w' → s'.events.sent = s.events.sent →
      w'.outbox = none ∨ w'.outbox = w.outbox → s.Announces e := by
    intro i w w' hw hset hevents hout
    exact announces_of_set (w := w) hset hevents (hout.imp id fun h => ⟨hw, h⟩) he
  cases effect_of_moves hmoves with
  | tick | receive | store => exact Or.inl he
  | track hrecv =>
    refine Or.inl (he.imp (fun hsent => ?_) id)
    rw [← (Channel.past_recv hrecv).2]
    exact hsent
  | join =>
    refine Or.inl (he.imp (fun hsent => ?_) id)
    rcases List.mem_append.mp hsent with hsent | hsent
    · exact hsent
    · obtain ⟨conn, -, hconn⟩ := List.mem_map.mp hsent
      cases hconn
  | loop _ _ _ _ hw => exact Or.inl (hkeep hw rfl rfl (Or.inr rfl))
  | assignId hw => exact Or.inl (hkeep hw rfl rfl (Or.inr rfl))
  | perform _ hw => exact Or.inl (hkeep hw rfl rfl (Or.inr rfl))
  | @send i w event hw hout =>
    left
    rcases he with hsent | ⟨v, hv, hvout⟩
    · rcases List.mem_append.mp hsent with hsent | hsent
      · exact Or.inl hsent
      · exact Or.inr ⟨w, List.mem_of_getElem? hw, by rw [hout, List.mem_singleton.mp hsent]⟩
    · rcases List.mem_or_eq_of_mem_set hv with hv | rfl
      · exact Or.inr ⟨v, hv, hvout⟩
      · cases hvout
  | @commit i w req t bytes isComplete hw =>
    left
    rcases he with hsent | ⟨v, hv, hvout⟩
    · rcases List.mem_append.mp hsent with hsent | hsent
      · exact Or.inl hsent
      · split at hsent
        · cases List.mem_singleton.mp hsent
        · cases hsent
    · rcases List.mem_or_eq_of_mem_set hv with hv | rfl
      · exact Or.inr ⟨v, hv, hvout⟩
      · exact Or.inr ⟨w, List.mem_of_getElem? hw, hvout⟩
  | @work i w w' delivery hw hout hlocal =>
    rcases he with hsent | ⟨v, hv, hvout⟩
    · exact Or.inl (Or.inl hsent)
    · rcases List.mem_or_eq_of_mem_set hv with hv | rfl
      · exact Or.inl (Or.inr ⟨v, hv, hvout⟩)
      · cases hlocal with
        | begin hph =>
          cases hvout
          exact Or.inr ⟨i, w, _, hw, hph, rfl, rfl, rfl, rfl⟩
        | panicBegin | header | body | panicReturn =>
          rw [hout] at hvout
          cases hvout
        | write =>
          simp only [Worker.writeStep, Option.map_eq_some_iff] at hvout
          obtain ⟨_, _, hpage⟩ := hvout
          cases hpage
        | «return» =>
          dsimp only at hvout
          split at hvout <;> cases hvout
        | finish | report => cases hvout

/-- A request is an old one, or has the next id. -/
theorem owns_cases {req : Request} (hmoves : Moves heap config s a s') (hreq : s'.Owns req) :
    s.Owns req ∨ req.requestId = s.nextRequestId := by
  rcases request_moves hmoves with ⟨hworkers, -, hcommits⟩ |
    ⟨i, w, w', chunk, hw, -, hnew, hworkers, -, hcommits⟩ |
    ⟨i, w, w', r, t, bytes, isComplete, fate, hw, hph, hnone, hworkers, -, hcommits⟩
  · have hsame : requestAt s'.workers = requestAt s.workers := by
      rcases hworkers with heq | ⟨i, w, w', hw, hkept, heq⟩
      · rw [heq]
      · rw [heq, requestAt_set_of_eq hw hkept]
    left
    rwa [System.Owns, hsame, hcommits] at hreq
  · rcases hreq with ⟨j, hj⟩ | hcommit
    · rw [hworkers, requestAt_set hw, hnew] at hj
      by_cases hji : j = i
      · rw [hji, Function.update_self, Option.some.injEq] at hj
        exact Or.inr (hj ▸ rfl)
      · rw [Function.update_of_ne hji] at hj
        exact Or.inl (Or.inl ⟨j, hj⟩)
    · exact Or.inl (Or.inr (hcommits ▸ hcommit))
  · left
    rcases hreq with ⟨j, hj⟩ | ⟨d, hd, rfl⟩
    · rw [hworkers, requestAt_set hw, hnone] at hj
      by_cases hji : j = i
      · rw [hji, Function.update_self] at hj
        cases hj
      · rw [Function.update_of_ne hji] at hj
        exact Or.inl ⟨j, hj⟩
    · rw [hcommits] at hd
      rcases List.mem_append.mp hd with hd | hd
      · exact Or.inr ⟨d, hd, rfl⟩
      · -- The request of the new commit was in the hands of worker `i`.
        rw [List.mem_singleton.mp hd]
        exact Or.inl ⟨i, requestAt_of_phase hw hph⟩

/-- Two owned requests with one id are one request. -/
theorem eq_of_owns (hN : Numbered s) {i : Nat} {req req' : Request}
    (hi : requestAt s.workers i = some req) (hreq' : s.Owns req')
    (hid : req'.requestId = req.requestId) : req' = req := by
  rcases hreq' with ⟨j, hj⟩ | ⟨d, hd, rfl⟩
  · have hij := hN.unique j i req' hj req hi hid
    rw [hij, hi] at hj
    exact (Option.some.inj hj).symm
  · exact absurd hid (hN.disjoint d hd i req hi)

/-- The counter does not run backwards. -/
theorem nextRequestId_mono (hmoves : Moves heap config s a s') :
    s.nextRequestId ≤ s'.nextRequestId := by
  rcases request_moves hmoves with ⟨-, hnext, -⟩ | ⟨_, _, _, _, _, _, _, _, hnext, -⟩ |
    ⟨_, _, _, _, _, _, _, _, _, _, _, _, hnext, -⟩ <;> omega

/-- What a worker holds was held before, or has just been taken. -/
theorem held_cases {w' : Worker} {c : PrioritizedChunk} (hmoves : Moves heap config s a s')
    (hw' : w' ∈ s'.workers) (hc : w'.held = some c) :
    (∃ w ∈ s.workers, w.held = some c) ∨ c.ReadyAt s'.now := by
  have hset : ∀ {i : Nat} {w v : Worker}, s.workers[i]? = some w →
      s'.workers = s.workers.set i v → v.held = w.held ∨ v.held = none →
      ∃ w ∈ s.workers, w.held = some c :=
    fun hw heq hheld => held_setWorker hw hheld w' (heq ▸ hw') c hc
  cases hmoves with
  | tick | track | receive | store | join => exact Or.inl ⟨w', hw', hc⟩
  | send hw => exact Or.inl (hset hw rfl (Or.inl rfl))
  | checkTime hw =>
    left
    unfold System.checkTime at hset
    split at hset <;> exact hset hw rfl (Or.inr rfl)
  | recheck hw =>
    left
    unfold System.recheck at hset
    split at hset <;> exact hset hw rfl (Or.inr rfl)
  | assignId hw _ hph => exact Or.inl (hset hw rfl (Or.inl (held_of_phase hph).symm))
  | commit hw => exact Or.inl (hset hw rfl (Or.inr rfl))
  | perform _ hw _ hph => exact Or.inl (hset hw rfl (Or.inl (held_of_phase hph).symm))
  | work hw _ hlocal => exact Or.inl (hset hw rfl (Or.inl (held_of_localStep hlocal)))
  | @pop i w ticks hw _ hph =>
    have hselects :=
      selects_popNext heap s.shared.completedChunks s.shared.chunkQueue ⟨s.now, ticks⟩
    unfold System.popChunk at hw' ⊢
    split at hw'
    · exact Or.inl (held_setWorker hw (Or.inr rfl) w' hw' c hc)
    · rename_i hexpired
      rcases List.mem_or_eq_of_mem_set hw' with hold | rfl
      · exact Or.inl ⟨w', hold, hc⟩
      · -- The pop section found it.
        right
        rw [if_neg hexpired]
        refine hselects.ready c ?_
        simp only [Worker.held] at hc
        split at hc
        · rename_i chunk hfound
          rw [hfound]
          exact hc
        · cases hc

/-! ### The invariant -/

/-- The least backoff, in milliseconds, before an entry of this lane is taken for the attempt
after number `attempt`. An entry of the prefetch lane is not a frontier blocker. -/
def minBackoffMs (lane : Lane) (attempt : Nat) : Nat :=
  (match lane with
    | .urgent => 500
    | .prefetch => RETRY_BACKOFF_BASE_MS) * 2 ^ min (attempt - 1) 4

/-- What the announcements that were made say about the backoffs. -/
structure Paced (s : System) : Prop where
  waited : ∀ w ∈ s.workers, ∀ c, w.held = some c → c.ReadyAt s.now
  past : ∀ e, s.Announces e → e.timestampNs ≤ s.now
  issued : ∀ e, s.Announces e → e.requestId < s.nextRequestId
  ready : ∀ e, s.Announces e → ∀ req, s.Owns req → req.requestId = e.requestId →
    req.chunk.ReadyAt e.timestampNs
  backoff : ∀ d ∈ s.commits, ∀ entry, d.fate = .retry entry →
    ∀ e, s.Announces e → e.requestId = d.note.requestId →
      ∃ retryAt, entry.retryAfter = some retryAt ∧
        e.timestampNs + minBackoffMs entry.lane d.item.nextAttempt * 1000000 ≤ retryAt

/-- Before the first step nothing is announced, held or committed. -/
theorem paced_start : Paced (.start opening heap config chunks) := by
  have hworkers : ∀ w ∈ (System.start opening heap config chunks).workers,
      w = .new config.pageSize :=
    fun w hw => List.eq_of_mem_replicate hw
  have hnone : ∀ e, ¬ (System.start opening heap config chunks).Announces e := by
    rintro e (hsent | ⟨w, hw, hout⟩)
    · -- The channel holds the opening event only.
      cases List.mem_singleton.mp hsent
    · rw [hworkers w hw] at hout
      cases hout
  constructor
  · intro w hw c hc
    rw [hworkers w hw] at hc
    cases hc
  · exact fun e he => absurd he (hnone e)
  · exact fun e he => absurd he (hnone e)
  · exact fun e he => absurd he (hnone e)
  · exact fun d hd => absurd hd List.not_mem_nil

/-- The entry of a retry waits for the backoff from the commit on. -/
theorem backoff_of_commitFate {st : SharedState} {pageSize bytes now : Nat}
    {chunk entry : PrioritizedChunk} {isComplete : Bool}
    (h : st.commitFate pageSize chunk bytes isComplete now = .retry entry) :
    ∃ retryAt, entry.retryAfter = some retryAt ∧
      now + minBackoffMs entry.lane chunk.nextAttempt * 1000000 ≤ retryAt := by
  obtain ⟨rfl, -, -, -⟩ := retry_of_commitFate h
  refine ⟨_, rfl, Nat.add_le_add_left (Nat.mul_le_mul_right _ ?_) _⟩
  simp only [retryEntry, minBackoffMs, backoffMs]
  refine Nat.mul_le_mul_right _ ?_
  cases isFrontierBlocker st.frontierByte pageSize chunk.rangeStart with
  | true => exact le_rfl
  | false =>
    simp only [Bool.false_eq_true, if_false]
    cases chunk.lane <;> simp [RETRY_BACKOFF_BASE_MS]

/-- One step keeps the pace. An entry is popped when its backoff is over, its request is announced
after that, and a commit fixes the next backoff from a later time on. -/
theorem paced_step (hN : Numbered s) (hP : Paced s) (hmoves : Moves heap config s a s') :
    Paced s' := by
  have hnow := now_mono hmoves
  have hnext := nextRequestId_mono hmoves
  constructor
  · intro w' hw' c hc
    rcases held_cases hmoves hw' hc with ⟨w, hw, hheld⟩ | hready
    · exact (hP.waited w hw c hheld).mono hnow
    · exact hready
  · intro e he
    rcases announces_cases hmoves he with hold | ⟨i, w, req, -, -, rfl, -⟩
    · exact (hP.past e hold).trans hnow
    · exact hnow
  · intro e he
    rcases announces_cases hmoves he with hold | ⟨i, w, req, hw, hph, rfl, -⟩
    · exact (hP.issued e hold).trans_le hnext
    · exact (hN.fresh i req (requestAt_of_phase hw hph)).trans_le hnext
  · intro e he req hreq hid
    rcases announces_cases hmoves he with hold | ⟨i, w, r, hw, hph, rfl, -⟩
    · rcases owns_cases hmoves hreq with hreq | hfresh
      · exact hP.ready e hold req hreq hid
      · -- Nobody has announced a request with the next id.
        have hissued := hP.issued e hold
        omega
    · have hat : requestAt s.workers i = some r := requestAt_of_phase hw hph
      rcases owns_cases hmoves hreq with hreq | hfresh
      · rw [eq_of_owns hN hat hreq hid]
        exact hP.waited w (List.mem_of_getElem? hw) r.chunk (held_of_phase hph)
      · have hlt := hN.fresh i r hat
        have heq : req.requestId = r.requestId := hid
        omega
  · intro d hd entry hfate e he hid
    rcases ledger_cases hmoves with ⟨i, w, r, t, bytes, isComplete, hw, -, hph, rfl⟩ |
      ⟨hcommits, -⟩
    · have hold : s.Announces e := by
        rcases announces_cases hmoves he with hold | ⟨j, v, req, -, -, -, hcommits, -⟩
        · exact hold
        · -- A commit is no announcement.
          have hlen := congrArg List.length hcommits
          simp [System.commit] at hlen
      rcases List.mem_append.mp hd with hd | hd
      · exact hP.backoff d hd entry hfate e hold hid
      · rw [List.mem_singleton.mp hd] at hfate ⊢
        obtain ⟨retryAt, hretry, hle⟩ := backoff_of_commitFate hfate
        have hpast := hP.past e hold
        exact ⟨retryAt, hretry, by dsimp only; omega⟩
    · rw [hcommits] at hd
      rcases announces_cases hmoves he with hold | ⟨i, w, r, hw, hph, rfl, -⟩
      · exact hP.backoff d hd entry hfate e hold hid
      · -- The request that begins is not committed yet.
        exact absurd hid.symm (hN.disjoint d hd i r (requestAt_of_phase hw hph))

/-- The pace is kept in every reachable state. -/
theorem paced_reachable (h : (benchmark opening heap config chunks).Reachable ok s) : Paced s :=
  reachable_invariant_of (J := Numbered) h (fun _ => numbered_reachable) paced_start
    fun _ _ _ hN _ hP _ hmoves => paced_step hN hP hmoves

/-! ### The distance in the trace -/

/-- Two consecutive attempts for a chunk. -/
theorem backoff_between (hids : (chunks.map ChunkRequest.chunkId).Nodup)
    (h : (benchmark opening heap config chunks).Reachable ok s) {c : ChunkRequest} (hc : c ∈ chunks)
    {i : Nat} {e e' : RequestStarted} (he : (s.startedAt c.chunkId)[i]? = some e)
    (he' : (s.startedAt c.chunkId)[i + 1]? = some e') :
    e.timestampNs + minBackoffMs e'.lane (i + 1) * 1000000 ≤ e'.timestampNs := by
  have hP := paced_reachable h
  have hannounced : ∀ {k : Nat} {e : RequestStarted}, (s.startedAt c.chunkId)[k]? = some e →
      s.Announces e :=
    fun hk => announces_of_mem (List.mem_of_mem_filter (List.mem_of_getElem? hk))
  obtain ⟨req', hattempt⟩ := attemptAt_of_started hids h hc he'
  obtain ⟨d, hd, hfate⟩ := commit_before hattempt
  -- The announcement before is the one that this commit answered.
  obtain ⟨e₀, he₀, ts, rfl⟩ := started_of_commit hids h hd
  rw [he] at he₀
  cases he₀
  have hdmem : d ∈ s.commits := List.mem_of_mem_filter (List.mem_of_getElem? hd)
  obtain ⟨retryAt, hretry, hle⟩ := hP.backoff d hdmem _ hfate _ (hannounced he) rfl
  have hnumber : d.item.nextAttempt = i + 1 := by
    obtain ⟨req, hreq⟩ := attemptAt_of_started hids h hc he
    have hattempts := (decided_reachable h d hdmem).retry _ hfate
    have hresumes := (hattempt.resumes h).attempt
    rw [hattempt.length, hattempts.2.2.2.1] at hresumes
    exact hresumes.trans (Nat.zero_add _)
  have howned : s.Owns req' := by
    rcases hattempt.place with ⟨d', hd', rfl⟩ | ⟨-, j, hj⟩
    · exact Or.inr ⟨d', List.mem_of_mem_filter (List.mem_of_getElem? hd'), rfl⟩
    · obtain ⟨w, hw, hann⟩ := Option.bind_eq_some_iff.mp hj
      refine Or.inl ⟨j, ?_⟩
      rw [requestAt_of_phase hw rfl]
      exact request_of_announced hann
  obtain ⟨ts', rfl⟩ := hattempt.startedBy
  have hready := hP.ready _ (hannounced he') req' howned rfl retryAt hretry
  rw [hnumber] at hle
  exact hle.trans hready

/-- The least distance between attempts `i + 1` and `j + 1`, in milliseconds. -/
def leastDistanceMs (i j : Nat) : Nat :=
  ((List.range' i (j - i)).map fun k => minBackoffMs .urgent (k + 1)).sum

/-- The urgent lane has the shorter backoffs. -/
theorem minBackoffMs_le (lane : Lane) (attempt : Nat) :
    minBackoffMs .urgent attempt ≤ minBackoffMs lane attempt := by
  cases lane with
  | urgent => exact le_rfl
  | prefetch => exact Nat.mul_le_mul_right _ (by decide)

/-- Two attempts for a chunk are at least as far apart as the backoffs between them. The induction
adds one attempt at a time. -/
theorem distance_between (hids : (chunks.map ChunkRequest.chunkId).Nodup)
    (h : (benchmark opening heap config chunks).Reachable ok s) {c : ChunkRequest} (hc : c ∈ chunks)
    {i j : Nat} (hle : i ≤ j) {e e' : RequestStarted}
    (he : (s.startedAt c.chunkId)[i]? = some e) (he' : (s.startedAt c.chunkId)[j]? = some e') :
    e.timestampNs + leastDistanceMs i j * 1000000 ≤ e'.timestampNs := by
  induction hle generalizing e' with
  | refl =>
    rw [he] at he'
    cases he'
    simp [leastDistanceMs]
  | @step j hij ih =>
    have hlt : j < (s.startedAt c.chunkId).length :=
      Nat.lt_of_succ_lt (List.getElem?_eq_some_iff.mp he').1
    have hj := List.getElem?_eq_getElem hlt
    have hfirst := ih hj
    have hlast := backoff_between hids h hc hj he'
    have hleast := minBackoffMs_le e'.lane (j + 1)
    have hsum : leastDistanceMs i (j + 1)
        = leastDistanceMs i j + minBackoffMs .urgent (j + 1) := by
      have hij : i ≤ j := hij
      rw [leastDistanceMs, show j + 1 - i = (j - i) + 1 by omega, List.range'_concat,
        List.map_append, List.sum_append, show i + 1 * (j - i) = j by omega]
      simp [leastDistanceMs]
    have hscaled := Nat.mul_le_mul_right 1000000 hleast
    rw [hsum, Nat.add_mul, ← Nat.add_assoc]
    exact (Nat.add_le_add hfirst hscaled).trans hlast

/-- Every retry is announced at least 0.5, 1, 2, 4 and then 8 s after the attempt before it,
and four times as late when its chunk is not near the frontier. So the tenth attempt for a
chunk comes at least 47.5 s after the first. -/
theorem backoff_honoured (hids : (chunks.map ChunkRequest.chunkId).Nodup)
    (h : (benchmark opening heap config chunks).Reachable TransitionSystem.any s) :
    ∀ c ∈ chunks,
      (∀ i e e', (s.startedAt c.chunkId)[i]? = some e → (s.startedAt c.chunkId)[i + 1]? = some e' →
        e.timestampNs + minBackoffMs e'.lane (i + 1) * 1000000 ≤ e'.timestampNs) ∧
      ∀ e e', (s.startedAt c.chunkId)[0]? = some e →
        (s.startedAt c.chunkId)[MAX_ATTEMPTS - 1]? = some e' →
        e.timestampNs + 47500000000 ≤ e'.timestampNs := by
  intro c hc
  refine ⟨fun i e e' he he' => backoff_between hids h hc he he', fun e e' he he' => ?_⟩
  have hleast : leastDistanceMs 0 (MAX_ATTEMPTS - 1) = 47500 := by decide
  have hdistance := distance_between hids h hc (Nat.zero_le _) he he'
  rw [hleast] at hdistance
  exact hdistance

/-- The second attempt waits for half a second. -/
theorem backoff_honoured_two_attempts :
    ∃ s, (benchmark .plain .ofList (.unlimited 1 4) [⟨0, 0, 7, .urgent⟩]).Reachable
        TransitionSystem.any s ∧
      ∃ e e', (s.startedAt 0)[0]? = some e ∧ (s.startedAt 0)[1]? = some e' ∧
        e.timestampNs + 500000000 ≤ e'.timestampNs := by
  obtain ⟨s, hs, hfirst, hsecond⟩ := TransitionSystem.exists_reachable_of_run
    (benchmark .plain .ofList (.unlimited 1 4) [⟨0, 0, 7, .urgent⟩]) TransitionSystem.any
    ([.advance 0, .pop 0 []] ++ Label.advances 0 3 ++
      [.perform 0 (.ofCallbacks [.write 3])] ++ Label.advances 0 10 ++
      [.tick 500000000, .pop 0 []] ++ Label.advances 0 3)
    (P := fun s => (s.startedAt 0)[0]? = some ⟨1, 0, .urgent, 1, "0-7", 0⟩ ∧
      (s.startedAt 0)[1]? = some ⟨2, 0, .urgent, 2, "3-7", 500000000⟩) (by decide)
  exact ⟨s, hs, _, _, hfirst, hsecond,
    (backoff_honoured (by decide) hs ⟨0, 0, 7, .urgent⟩ (by decide)).1 0 _ _ hfirst hsecond⟩

end FrontierSim
