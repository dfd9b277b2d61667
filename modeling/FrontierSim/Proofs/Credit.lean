import FrontierSim.Proofs.Attempts

/-!
# `FrontierSim.Proofs.Credit`: which responses are credited

The reactor parses the status of a response and classifies a status from 400 on as
`HttpError`. But the pages, the completion and the resume offset are derived from the byte
count alone. So the body of a rate-limit reply is credited to the chunk as if it were file
content. `credit_iff` says exactly when a response that misses the requested range is not
credited: when it has no body.
-/

set_option autoImplicit false

namespace FrontierSim

open Lib

/-- The response does not serve the requested range: it is an error, or the whole file
where the range starts later. -/
def Transfer.MissesRange (t : Transfer) (chunk : PrioritizedChunk) : Prop :=
  ∃ code ∈ t.finalStatus, 400 ≤ code ∨ (code = 200 ∧ 0 < chunk.rangeStart)

/-- The bytes of the response were counted as file content: a page was reported for the
request, or its chunk was completed, or the resume offset moved. -/
def System.Credits (s : System) (req : Request) : Prop :=
  (∃ e, s.Emitted (.pageCompleted e) ∧ e.requestId = req.requestId) ∨
  ∃ c ∈ s.commits, c.note.requestId = req.requestId ∧
    (c.fate.isDone = true ∨
      ∃ entry, c.fate = .retry entry ∧ entry.rangeStart ≠ c.item.rangeStart)

variable {heap : ChunkHeap} {config : ReactorConfig} {chunks : List ChunkRequest}
  {opening : RunStarted} {ok : System → Label → Prop} {s : System}

/-- A committed request with a body reported a page. -/
theorem credits_of_body (hL : Ledger config.pageSize s) {c : ChunkCommit} (hc : c ∈ s.commits)
    (hdecided : Decided config.pageSize c) (hbody : 0 < c.note.transfer.bodyBytes) :
    s.Credits c.request := by
  left
  have hpages := (hL.commits c hc).pages_sent
  -- A body of any length takes up a page, whole or not.
  obtain ⟨k, hk⟩ := Nat.exists_eq_add_one_of_ne_zero
    (Nat.pos_iff_ne_zero.mp (pagesFor_pos hdecided.pageSize_pos hbody))
  rw [hk, List.range'_succ] at hpages
  obtain ⟨e, hsent, hid, -⟩ := mem_pagesOf.mp (hpages ▸ List.mem_cons_self)
  exact ⟨e, Or.inl hsent, hid⟩

/-- An empty body gives the worker nothing to report. -/
theorem pages_of_empty {w : Worker} {req : Request} {t : Transfer}
    (hcons : w.Consistent config.pageSize) (hfits : w.Fits)
    (hlogged : w.Logged config.pageSize s) (hanswer : w.phase.answer = some (req, t))
    (hempty : t.bodyBytes = 0) : s.pagesOf req.requestId = [] ∧ w.pendingPage = none := by
  obtain ⟨hpos, bytes, pages, hrec, hle, hpages⟩ :=
    recorded_of_answer hcons hfits hlogged hanswer
  have hzero : pages = 0 := by
    rcases hpages with hfull | ⟨-, hall⟩
    · -- During `perform`: a page that was reported is full.
      rw [hempty] at hle
      have hmul : pages * config.pageSize = 0 := by omega
      exact (Nat.mul_eq_zero.mp hmul).resolve_right (by omega)
    · -- After `perform`: the pages are those of the body.
      rw [hall, hempty, pagesFor_zero]
  have hnil := hrec.pages
  rw [hzero, List.range'_zero, List.append_eq_nil_iff] at hnil
  refine ⟨hnil.1, ?_⟩
  cases hpending : w.pendingPage with
  | none => rfl
  | some p =>
    rw [hpending] at hnil
    exact absurd hnil.2 (List.cons_ne_nil _ _)

/-- A page report with the id of a request whose body is empty does not exist. -/
theorem no_page_of_empty (hworkers : ∀ w ∈ s.workers, w.Fits) {req : Request}
    (hsent : s.pagesOf req.requestId = [])
    (hpending : ∀ (i : Nat) (w : Worker) (r : Request), s.workers[i]? = some w →
      w.phase.request = some r → r.requestId = req.requestId → w.pendingPage = none) :
    ∀ e, s.Emitted (.pageCompleted e) → e.requestId ≠ req.requestId := by
  rintro e (he | ⟨w, hw, hout⟩) hid
  · -- The report was sent, or waits in an outbox.
    have hmem := mem_pagesOf.mpr ⟨e, he, hid, rfl⟩
    rw [hsent] at hmem
    cases hmem
  · obtain ⟨r, hr, her⟩ := request_of_pending (hworkers w hw _ hout)
    obtain ⟨i, hi⟩ := List.mem_iff_getElem?.mp hw
    have hnone := hpending i w r hi hr (her.symm.trans hid)
    rw [pendingPage_of_outbox hout] at hnone
    cases hnone

/-- A committed request without a body was not credited. -/
theorem not_credits_of_empty (hL : Ledger config.pageSize s) (hN : Numbered s)
    (hworkers : ∀ w ∈ s.workers, w.Fits) {c : ChunkCommit} (hc : c ∈ s.commits)
    (hdecided : Decided config.pageSize c) (hempty : c.note.transfer.bodyBytes = 0) :
    ¬ s.Credits c.request := by
  have hpages := (hL.commits c hc).pages_sent
  rw [hempty, pagesFor_zero, List.range'_zero] at hpages
  rintro (⟨e, he, hid⟩ | ⟨c', hc', hid, hcredit⟩)
  · refine no_page_of_empty hworkers hpages (fun i w r hi hr heq => ?_) e he hid
    exact absurd heq.symm (hN.disjoint c hc i r (by rwa [requestAt_of_phase hi rfl]))
  · -- The only commit with this id is `c`.
    have hcc : c' = c := List.inj_on_of_nodup_map hN.nodup hc' hc hid
    subst hcc
    -- The range is not empty: without a byte it is not complete, and the offset stays.
    rcases hcredit with hdone | ⟨entry, hretry, hne⟩
    · have := hdecided.done.mp hdone
      have := hdecided.start_le
      omega
    · have := (hdecided.retry entry hretry).2.1
      omega

/-- Exactly when a response that misses the requested range is not credited. For a
transfer that is not committed yet, an empty body is enough as well. -/
theorem credit_iff (h : (benchmark opening heap config chunks).Reachable TransitionSystem.any s) :
    (∀ c ∈ s.commits, c.note.transfer.MissesRange c.item →
      (¬ s.Credits c.request ↔ c.note.transfer.bodyBytes = 0)) ∧
    ∀ w ∈ s.workers, ∀ req t, w.phase.answer = some (req, t) → t.MissesRange req.chunk →
      t.bodyBytes = 0 → ¬ s.Credits req := by
  have hL := ledger_reachable h
  have hN := numbered_reachable h
  have hworkers := consistent_reachable h
  have hfits : ∀ w ∈ s.workers, w.Fits := fun w hw => (hworkers w hw).2
  constructor
  · intro c hc _
    have hdecided := decided_reachable h c hc
    constructor
    · intro hnot
      by_contra hne
      exact hnot (credits_of_body hL hc hdecided (Nat.pos_of_ne_zero hne))
    · exact not_credits_of_empty hL hN hfits hc hdecided
  · intro w hw req t hanswer _ hempty
    obtain ⟨i, hi⟩ := List.mem_iff_getElem?.mp hw
    have hreq : req ∈ requestAt s.workers i := by
      rw [requestAt_of_phase hi rfl, request_of_answer hanswer]
      rfl
    obtain ⟨hsent, hpending⟩ :=
      pages_of_empty (hworkers w hw).1 (hfits w hw) (hL.workers w hw) hanswer hempty
    rintro (⟨e, he, hid⟩ | ⟨c, hc, hid, -⟩)
    · -- Ids are unique, so a worker with this id is worker `i`.
      refine no_page_of_empty hfits hsent (fun j v r hj hr heq => ?_) e he hid
      have hij : j = i := hN.unique j i r (by rwa [requestAt_of_phase hj rfl]) req hreq heq
      subst hij
      rw [hi] at hj
      cases hj
      exact hpending
    · exact hN.disjoint c hc i req hreq hid

/-- A run in which the server refuses the whole range with an empty rate-limit reply. -/
theorem credit_iff_empty_reply :
    ∃ s, (benchmark .plain .ofList (.unlimited 1 4) [⟨0, 0, 3, .urgent⟩]).Reachable
        TransitionSystem.any s ∧
      ∃ c ∈ s.commits, c.note.transfer.MissesRange c.item ∧ ¬ s.Credits c.request := by
  obtain ⟨s, hs, c, hc, hstatus, hempty⟩ := TransitionSystem.exists_reachable_of_run
    (benchmark .plain .ofList (.unlimited 1 4) [⟨0, 0, 3, .urgent⟩]) TransitionSystem.any
    ([.advance 0, .pop 0 []] ++ Label.advances 0 3 ++
      [.perform 0 (.ofCallbacks [.header (some "HTTP/1.1 429".toList)])] ++ Label.advances 0 7)
    (P := fun s => ∃ c ∈ s.commits, c.note.transfer.finalStatus = some 429 ∧
      c.note.transfer.bodyBytes = 0) (by decide)
  have hmisses : c.note.transfer.MissesRange c.item := ⟨429, hstatus, Or.inl (by decide)⟩
  exact ⟨s, hs, c, hc, hmisses, ((credit_iff hs).1 c hc hmisses).mpr hempty⟩

/-- The body of a rate-limit reply, as long as the requested range, completes the chunk,
and its page is reported. -/
theorem rate_limit_body_credited :
    ∃ s, (benchmark .plain .ofList (.unlimited 1 4) [⟨0, 0, 3, .urgent⟩]).Reachable
        TransitionSystem.any s ∧
      ∃ c ∈ s.commits, c.note.transfer.MissesRange c.item ∧ c.fate.isDone = true ∧
        s.Credits c.request ∧ 0 ∈ s.pagesOf c.note.requestId := by
  obtain ⟨s, hs, c, hc, hstatus, hdone, hpage⟩ := TransitionSystem.exists_reachable_of_run
    (benchmark .plain .ofList (.unlimited 1 4) [⟨0, 0, 3, .urgent⟩]) TransitionSystem.any
    ([.advance 0, .pop 0 []] ++ Label.advances 0 3 ++
      [.perform 0 (.ofCallbacks [.header (some "HTTP/1.1 429".toList), .write 4])] ++
      Label.advances 0 10)
    (P := fun s => ∃ c ∈ s.commits, c.note.transfer.finalStatus = some 429 ∧
      c.fate.isDone = true ∧ 0 ∈ s.pagesOf c.note.requestId) (by decide)
  exact ⟨s, hs, c, hc, ⟨429, hstatus, Or.inl (by decide)⟩, hdone,
    Or.inr ⟨c, hc, rfl, Or.inl hdone⟩, hpage⟩

end FrontierSim
