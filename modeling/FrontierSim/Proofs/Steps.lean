import FrontierSim.Benchmark

/-!
# `FrontierSim.Proofs.Steps`: what one step of a run can do

`Moves` lists the atomic actions of a run with their guards, and `moves_of_step` says that
a step is one of them. `Effect` is the same list for the invariants that do not look into the
loop control of a worker: the three actions without a request are one case there. Every
invariant of the run is a case analysis on one of the two.

The second half is about the worker list. A step of worker `i` replaces one entry, and
`getElem?_setWorker` reads the list after that. `localStep_cases` does for the worker's
own code what `Moves` does for the run.
-/

set_option autoImplicit false

namespace FrontierSim

open Lib

/-- The actions of a run. -/
inductive Moves (heap : ChunkHeap) (config : ReactorConfig) (s : System) :
    Label → System → Prop
  | tick (d : Nat) : Moves heap config s (.tick d) { s with now := s.now + d }
  | send {i : Nat} {w : Worker} {event : TraceEvent}
      (hw : s.workers[i]? = some w) (hout : w.outbox = some event) :
      Moves heap config s (.advance i) (s.sendOutbox i w event)
  | checkTime {i : Nat} {w : Worker}
      (hw : s.workers[i]? = some w) (hout : w.outbox = none) (hph : w.phase = .loopHead) :
      Moves heap config s (.advance i) (s.checkTime config i w)
  | recheck {i : Nat} {w : Worker}
      (hw : s.workers[i]? = some w) (hout : w.outbox = none) (hph : w.phase = .sleeping) :
      Moves heap config s (.advance i) (s.recheck i w)
  | assignId {i : Nat} {w : Worker} {chunk : PrioritizedChunk}
      (hw : s.workers[i]? = some w) (hout : w.outbox = none) (hph : w.phase = .popped chunk) :
      Moves heap config s (.advance i) (s.assignId i w chunk)
  | commit {i : Nat} {w : Worker} {req : Request} {t : Transfer} {bytes : Nat} {isComplete : Bool}
      (hw : s.workers[i]? = some w) (hout : w.outbox = none)
      (hph : w.phase = .committing req t bytes isComplete) :
      Moves heap config s (.advance i) (s.commit heap config i w req t bytes isComplete)
  | work {i : Nat} {w w' : Worker} {delivery : Option Delivery}
      (hw : s.workers[i]? = some w) (hout : w.outbox = none)
      (hlocal : w.localStep s.now = some (w', delivery)) :
      Moves heap config s (.advance i) (s.work i w' delivery)
  | pop {i : Nat} {w : Worker} (ticks : List Nat)
      (hw : s.workers[i]? = some w) (hout : w.outbox = none) (hph : w.phase = .locking) :
      Moves heap config s (.pop i ticks) (s.popChunk heap i w ticks)
  | perform {i : Nat} {w : Worker} {req : Request} (t : Transfer)
      (hw : s.workers[i]? = some w) (hout : w.outbox = none) (hph : w.phase = .ready req) :
      Moves heap config s (.perform i t)
        (s.setWorker i { w with phase := .performing req t t.callbacks 0 })
  | track {event : TraceEvent} {events : Channel TraceEvent}
      (hrecv : s.events.recv = some (event, events)) :
      Moves heap config s .track
        { s with
          events := events
          runner := (s.runner.process event).1
          feedback := s.feedback.sendAll (s.runner.process event).2.toList }
  | receive {frontierByte : Nat} {feedback : Channel Nat}
      (hnone : s.coordinator = none) (hrecv : s.feedback.recv = some (frontierByte, feedback)) :
      Moves heap config s .receive
        { s with feedback := feedback, coordinator := some frontierByte }
  | store {frontierByte : Nat} (hsome : s.coordinator = some frontierByte) :
      Moves heap config s .store
        { s with
          shared := { s.shared with frontierByte := frontierByte }
          coordinator := none }
  | join {order : List ConnectionRecord} (hnone : s.result = none)
      (hstopped : ∀ w ∈ s.workers, w.phase.stopped = true)
      (hperm : order.Perm s.shared.connections) :
      Moves heap config s (.join order)
        { s with
          events := s.events.sendAll (order.map fun conn => .connectionLifecycle conn.lifecycle)
          result := some
            { totalBytes := s.shared.totalBytes
              totalRequests := s.shared.totalRequests
              totalConnections := s.shared.connections.length
              connections := order
              failedChunks := s.shared.failedChunks
              retriedChunks := s.shared.retriedChunks } }

variable {heap : ChunkHeap} {config : ReactorConfig} {s s' : System} {a : Label}

/-- A worker's action where the environment has no say. -/
theorem moves_of_advance {i : Nat} {w : Worker} (hw : s.workers[i]? = some w)
    (h : s.advance heap config i w = some s') : Moves heap config s (.advance i) s' := by
  unfold System.advance at h
  -- The outbox first, then the phase, as `advance` looks at them.
  cases hout : w.outbox with
  | some event =>
    simp only [hout, Option.some.injEq] at h
    exact h ▸ .send hw hout
  | none =>
    simp only [hout] at h
    split at h
    · rename_i hph
      exact Option.some.inj h ▸ .checkTime hw hout hph
    · rename_i hph
      exact Option.some.inj h ▸ .recheck hw hout hph
    · rename_i chunk hph
      exact Option.some.inj h ▸ .assignId hw hout hph
    · rename_i req t bytes isComplete hph
      exact Option.some.inj h ▸ .commit hw hout hph
    · obtain ⟨⟨w', delivery⟩, hlocal, heq⟩ := Option.map_eq_some_iff.mp h
      exact heq ▸ .work hw hout hlocal

/-- A step is one of the actions. -/
theorem moves_of_step (h : System.step heap config a s = some s') :
    Moves heap config s a s' := by
  cases a with
  | tick d => exact Option.some.inj h ▸ .tick d
  | advance i =>
    obtain ⟨w, hw, h⟩ := Option.bind_eq_some_iff.mp h
    exact moves_of_advance hw h
  | pop i ticks =>
    obtain ⟨w, hw, h⟩ := Option.bind_eq_some_iff.mp h
    split at h
    · rename_i hout hph
      exact Option.some.inj h ▸ .pop ticks hw hout hph
    · cases h
  | perform i t =>
    obtain ⟨w, hw, h⟩ := Option.bind_eq_some_iff.mp h
    split at h
    · rename_i req hout hph
      exact Option.some.inj h ▸ .perform t hw hout hph
    · cases h
  | track =>
    obtain ⟨⟨event, events⟩, hrecv, heq⟩ := Option.map_eq_some_iff.mp h
    exact heq ▸ .track hrecv
  | receive =>
    simp only [System.step, System.receive] at h
    split at h
    · cases h
    · rename_i hnone
      obtain ⟨⟨frontierByte, feedback⟩, hrecv, heq⟩ := Option.map_eq_some_iff.mp h
      exact heq ▸ .receive hnone hrecv
  | store =>
    obtain ⟨frontierByte, hsome, heq⟩ := Option.map_eq_some_iff.mp h
    exact heq ▸ .store hsome
  | join order =>
    simp only [System.step, System.join] at h
    split at h
    · rename_i hcond
      exact Option.some.inj h ▸ .join (by simpa using hcond.1) hcond.2.1 hcond.2.2
    · cases h

/-- The invariant rule of the run, over `Moves`. -/
theorem reachable_invariant {chunks : List ChunkRequest} {opening : RunStarted}
    {ok : System → Label → Prop} {P : System → Prop}
    (h : (benchmark opening heap config chunks).Reachable ok s)
    (hinit : P (.start opening heap config chunks))
    (hmoves : ∀ s a s', P s → ok s a → Moves heap config s a s' → P s') : P s :=
  h.invariant hinit fun s a s' hP hok hstep => hmoves s a s' hP hok (moves_of_step hstep)

/-- The invariant rule relative to a known fact. -/
theorem reachable_invariant_of {chunks : List ChunkRequest} {opening : RunStarted}
    {ok : System → Label → Prop} {J P : System → Prop}
    (h : (benchmark opening heap config chunks).Reachable ok s)
    (hJ : ∀ s, (benchmark opening heap config chunks).Reachable ok s → J s)
    (hinit : P (.start opening heap config chunks))
    (hmoves : ∀ s a s', J s → J s' → P s → ok s a → Moves heap config s a s' → P s') : P s :=
  h.invariant_of hJ hinit fun s a s' hJs hJs' hP hok hstep =>
    hmoves s a s' hJs hJs' hP hok (moves_of_step hstep)

/-! ### The worker list -/

/-- A worker that was put into its place is found there. -/
theorem getElem?_set_self {ws : List Worker} {i : Nat} {w w' : Worker}
    (hw : ws[i]? = some w) : (ws.set i w')[i]? = some w' := by
  rw [List.getElem?_set_self (List.getElem?_eq_some_iff.mp hw).1]

/-- Worker `j` after worker `i` became `w'`. -/
theorem getElem?_setWorker {ws : List Worker} {i j : Nat} {w w' v : Worker}
    (hw : ws[i]? = some w) (hv : (ws.set i w')[j]? = some v) :
    (j = i ∧ v = w') ∨ (j ≠ i ∧ ws[j]? = some v) := by
  by_cases hij : j = i
  · subst hij
    rw [getElem?_set_self hw] at hv
    exact Or.inl ⟨rfl, (Option.some.inj hv).symm⟩
  · rw [List.getElem?_set_ne (Ne.symm hij)] at hv
    exact Or.inr ⟨hij, hv⟩

/-- A fact about every worker, after worker `i` became `w'`. -/
theorem forall_setWorker {P : Worker → Prop} {ws : List Worker} {i : Nat} {w' : Worker}
    (hall : ∀ w ∈ ws, P w) (hw' : P w') : ∀ w ∈ ws.set i w', P w := by
  intro v hv
  rcases List.mem_or_eq_of_mem_set hv with hv | rfl
  · exact hall v hv
  · exact hw'

/-- Worker `i` is among the workers after it became `w'`. -/
theorem mem_set_self {ws : List Worker} {i : Nat} {w w' : Worker} (hw : ws[i]? = some w) :
    w' ∈ ws.set i w' :=
  List.mem_of_getElem? (getElem?_set_self hw)

/-- A list of values read off the workers, split at worker `i`. -/
theorem filterMap_set {β : Type} (f : Worker → Option β) {ws : List Worker} {i : Nat}
    {w : Worker} (hw : ws[i]? = some w) :
    ∃ before after : List β,
      ws.filterMap f = before ++ (f w).toList ++ after ∧
      ∀ w' : Worker, (ws.set i w').filterMap f = before ++ (f w').toList ++ after := by
  have hi : i < ws.length := (List.getElem?_eq_some_iff.mp hw).1
  -- `set` keeps what stands before and after position `i`.
  have hsplit : ws = ws.take i ++ w :: ws.drop (i + 1) := by
    have hget : ws[i] = w := (List.getElem?_eq_some_iff.mp hw).2
    rw [← hget, List.getElem_cons_drop, List.take_append_drop]
  have hone : ∀ v : Worker, [v].filterMap f = (f v).toList := fun v => by
    cases hv : f v <;> simp [hv]
  have hcons : ∀ v : Worker, (ws.take i ++ v :: ws.drop (i + 1)).filterMap f
      = (ws.take i).filterMap f ++ (f v).toList ++ (ws.drop (i + 1)).filterMap f := by
    intro v
    rw [show v :: ws.drop (i + 1) = [v] ++ ws.drop (i + 1) from rfl, List.filterMap_append,
      List.filterMap_append, hone, List.append_assoc]
  refine ⟨(ws.take i).filterMap f, (ws.drop (i + 1)).filterMap f, ?_, fun w' => ?_⟩
  · rw [← hcons, ← hsplit]
  · rw [List.set_eq_take_append_cons_drop, if_pos hi]
    exact hcons w'

/-- A sum over the workers after worker `i` became `w'`. -/
theorem sum_map_set (f : Worker → Nat) {ws : List Worker} {i : Nat} {w : Worker}
    (hw : ws[i]? = some w) (w' : Worker) :
    ((ws.set i w').map f).sum + f w = (ws.map f).sum + f w' := by
  induction ws generalizing i with
  | nil => cases hw
  | cons v rest ih =>
    cases i with
    | zero =>
      obtain rfl : v = w := Option.some.inj hw
      simp only [List.set_cons_zero, List.map_cons, List.sum_cons]
      omega
    | succ i =>
      have hrest := ih hw
      simp only [List.set_cons_succ, List.map_cons, List.sum_cons]
      omega

/-! ### The worker's own code -/

/-- The actions of a worker's own code. -/
inductive LocalMoves (w : Worker) (now : Nat) : Worker → Option Delivery → Prop
  | panicBegin {req : Request} (hph : w.phase = .assigned req) (hzero : w.handler.pageSize = 0) :
      LocalMoves w now { w with phase := .panicked req } none
  | begin {req : Request} (hph : w.phase = .assigned req) (hpos : 0 < w.handler.pageSize) :
      LocalMoves w now
        { handler :=
            { requestId := req.requestId
              chunkId := req.chunk.chunkId
              pageSize := w.handler.pageSize
              currentPageBytes := 0
              currentPageIndex := req.chunk.rangeStart / w.handler.pageSize
              bytesReceived := 0
              responseCode := none }
          phase := .ready req
          outbox := some (.requestStarted (req.started now)) } none
  | write {req : Request} {t : Transfer} {left : List Callback} {remaining : Nat}
      (hph : w.phase = .performing req t left remaining) (hpos : 0 < remaining) :
      LocalMoves w now (w.writeStep now req t left remaining) none
  | header {req : Request} {t : Transfer} {line : Option (List Char)} {left : List Callback}
      (hph : w.phase = .performing req t (.header line :: left) 0) :
      LocalMoves w now
        { w with handler := w.handler.header line, phase := .performing req t left 0 } none
  | body {req : Request} {t : Transfer} {len : Nat} {left : List Callback}
      (hph : w.phase = .performing req t (.write len :: left) 0) :
      LocalMoves w now { w with phase := .performing req t left len }
        (some ⟨req.requestId, req.chunk.rangeStart + w.handler.bytesReceived, len⟩)
  | panicReturn {req : Request} {t : Transfer}
      (hph : w.phase = .performing req t [] 0) (hexp : req.chunk.expected = none) :
      LocalMoves w now { w with phase := .panicked req } none
  | return {req : Request} {t : Transfer} {expected : Nat}
      (hph : w.phase = .performing req t [] 0) (hexp : req.chunk.expected = some expected) :
      LocalMoves w now
        { w with
          phase := .finishing req t w.handler.bytesReceived
            (decide (w.handler.bytesReceived ≥ expected))
          outbox := if w.handler.currentPageBytes > 0 then
              some (.pageCompleted (w.handler.pageCompleted now))
            else none } none
  | finish {req : Request} {t : Transfer} {bytes : Nat} {isComplete : Bool}
      (hph : w.phase = .finishing req t bytes isComplete) :
      LocalMoves w now
        { w with
          phase := .reporting req t bytes isComplete
          outbox := some
            (.requestFinished (req.finished t bytes w.handler.responseCode now)) } none
  | report {req : Request} {t : Transfer} {bytes : Nat} {isComplete : Bool}
      (hph : w.phase = .reporting req t bytes isComplete) :
      LocalMoves w now
        { w with
          phase := .committing req t bytes isComplete
          outbox := some (.requestPrereq (req.prereq t now)) } none

/-- What the worker's own code can do, as an inductive list of cases. -/
theorem localStep_cases {w w' : Worker} {now : Nat} {delivery : Option Delivery}
    (h : w.localStep now = some (w', delivery)) : LocalMoves w now w' delivery := by
  unfold Worker.localStep at h
  split at h
  · rename_i req hph
    simp only [Option.some.injEq, Prod.mk.injEq] at h
    obtain ⟨rfl, rfl⟩ := h
    unfold Worker.begin
    cases hre : w.handler.reinit req.requestId req.chunk.chunkId req.chunk.rangeStart with
    | none =>
      -- `reinit` fails for one reason, the division by a page size of zero.
      refine .panicBegin hph ?_
      by_contra hne
      simp [WorkerHandler.reinit, U64.checkedDiv, hne] at hre
    | some handler =>
      simp only [WorkerHandler.reinit, U64.checkedDiv, Option.bind_eq_bind,
        Option.bind_eq_some_iff] at hre
      obtain ⟨pageIndex, hdiv, heq⟩ := hre
      split at hdiv
      · cases hdiv
      · rename_i hne
        cases hdiv
        cases heq
        exact .begin hph (Nat.pos_of_ne_zero hne)
  · rename_i req t left remaining hph
    split at h
    · rename_i hpos
      simp only [Option.some.injEq, Prod.mk.injEq] at h
      obtain ⟨rfl, rfl⟩ := h
      exact .write hph hpos
    · rename_i hzero
      -- Between two callbacks: what comes next is the head of `left`.
      have hzero : remaining = 0 := Nat.eq_zero_of_not_pos hzero
      subst hzero
      split at h
      · simp only [Option.some.injEq, Prod.mk.injEq] at h
        obtain ⟨rfl, rfl⟩ := h
        unfold Worker.afterPerform
        cases hexp : req.chunk.expected with
        | none => exact .panicReturn hph hexp
        | some expected => exact .return hph hexp
      · simp only [Option.some.injEq, Prod.mk.injEq] at h
        obtain ⟨rfl, rfl⟩ := h
        exact .header hph
      · simp only [Option.some.injEq, Prod.mk.injEq] at h
        obtain ⟨rfl, rfl⟩ := h
        exact .body hph
  · rename_i req t bytes isComplete hph
    simp only [Option.some.injEq, Prod.mk.injEq] at h
    obtain ⟨rfl, rfl⟩ := h
    exact .finish hph
  · rename_i req t bytes isComplete hph
    simp only [Option.some.injEq, Prod.mk.injEq] at h
    obtain ⟨rfl, rfl⟩ := h
    exact .report hph
  · cases h

/-- What a worker holds can be read off its phase. -/
theorem held_of_phase {w : Worker} {phase : Phase} (hph : w.phase = phase) :
    w.held = phase.held := by
  rw [Worker.held, hph]

/-- The worker's own code keeps the chunk in its hands. -/
theorem held_of_localStep {w w' : Worker} {now : Nat} {delivery : Option Delivery}
    (h : w.localStep now = some (w', delivery)) : w'.held = w.held := by
  cases localStep_cases h <;>
    simp only [Worker.held, Worker.writeStep, *, Phase.held]

/-! ### One worker in a run -/

/-- What a step of the run can do to the worker that acts. -/
inductive WorkerMoves (w : Worker) : Worker → Prop
  | send {event : TraceEvent} (hout : w.outbox = some event) :
      WorkerMoves w { w with outbox := none }
  | idle {phase : Phase} (hout : w.outbox = none) (hbefore : w.phase.held = none)
      (hloop : phase = .loopHead ∨ phase = .locking ∨ phase = .sleeping ∨ phase = .exited) :
      WorkerMoves w { w with phase := phase }
  | pop {chunk : PrioritizedChunk} (hout : w.outbox = none) (hph : w.phase = .locking) :
      WorkerMoves w { w with phase := .popped chunk }
  | assignId {chunk : PrioritizedChunk} (requestId : Nat) (hout : w.outbox = none)
      (hph : w.phase = .popped chunk) :
      WorkerMoves w { w with phase := .assigned ⟨requestId, chunk⟩ }
  | perform {req : Request} (t : Transfer) (hout : w.outbox = none) (hph : w.phase = .ready req) :
      WorkerMoves w { w with phase := .performing req t t.callbacks 0 }
  | commit {req : Request} {t : Transfer} {bytes : Nat} {isComplete : Bool}
      (hout : w.outbox = none) (hph : w.phase = .committing req t bytes isComplete) :
      WorkerMoves w { w with phase := .loopHead }
  | work {now : Nat} {w' : Worker} {delivery : Option Delivery} (hout : w.outbox = none)
      (hlocal : LocalMoves w now w' delivery) : WorkerMoves w w'

/-! ### The loop control as one action -/

/-- The request that the worker works on. -/
def Phase.request : Phase → Option Request
  | .assigned req | .ready req | .performing req .. | .finishing req .. | .reporting req ..
  | .committing req .. | .panicked req => some req
  | .loopHead | .locking | .sleeping | .popped _ | .exited => none

/-- A worker in its loop that has no chunk. -/
def Phase.idle : Phase → Bool
  | .loopHead | .locking | .sleeping => true
  | _ => false

/-- What a step does, where the loop control of a worker is one action: the time check, the
pop section and the check after the sleep. It may set the flag and change the queue. -/
inductive Effect (heap : ChunkHeap) (config : ReactorConfig) (s : System) :
    Label → System → Prop
  | tick (d : Nat) : Effect heap config s (.tick d) { s with now := s.now + d }
  | loop {a : Label} {i : Nat} {w : Worker} (phase : Phase) (now : Nat)
      (queue : List PrioritizedChunk) (timeExpired : Bool)
      (hw : s.workers[i]? = some w) (hout : w.outbox = none) (hidle : w.phase.idle = true)
      (hnone : phase.request = none) (hmoves : WorkerMoves w { w with phase := phase }) :
      Effect heap config s a
        { s.setWorker i { w with phase := phase } with
          now := now
          shared := { s.shared with chunkQueue := queue, timeExpired := timeExpired } }
  | send {i : Nat} {w : Worker} {event : TraceEvent}
      (hw : s.workers[i]? = some w) (hout : w.outbox = some event) :
      Effect heap config s (.advance i) (s.sendOutbox i w event)
  | assignId {i : Nat} {w : Worker} {chunk : PrioritizedChunk}
      (hw : s.workers[i]? = some w) (hout : w.outbox = none) (hph : w.phase = .popped chunk) :
      Effect heap config s (.advance i) (s.assignId i w chunk)
  | commit {i : Nat} {w : Worker} {req : Request} {t : Transfer} {bytes : Nat} {isComplete : Bool}
      (hw : s.workers[i]? = some w) (hout : w.outbox = none)
      (hph : w.phase = .committing req t bytes isComplete) :
      Effect heap config s (.advance i) (s.commit heap config i w req t bytes isComplete)
  | work {i : Nat} {w w' : Worker} {delivery : Option Delivery}
      (hw : s.workers[i]? = some w) (hout : w.outbox = none)
      (hlocal : LocalMoves w s.now w' delivery) :
      Effect heap config s (.advance i) (s.work i w' delivery)
  | perform {i : Nat} {w : Worker} {req : Request} (t : Transfer)
      (hw : s.workers[i]? = some w) (hout : w.outbox = none) (hph : w.phase = .ready req) :
      Effect heap config s (.perform i t)
        (s.setWorker i { w with phase := .performing req t t.callbacks 0 })
  | track {event : TraceEvent} {events : Channel TraceEvent}
      (hrecv : s.events.recv = some (event, events)) :
      Effect heap config s .track
        { s with
          events := events
          runner := (s.runner.process event).1
          feedback := s.feedback.sendAll (s.runner.process event).2.toList }
  | receive {frontierByte : Nat} {feedback : Channel Nat}
      (hnone : s.coordinator = none) (hrecv : s.feedback.recv = some (frontierByte, feedback)) :
      Effect heap config s .receive
        { s with feedback := feedback, coordinator := some frontierByte }
  | store {frontierByte : Nat} (hsome : s.coordinator = some frontierByte) :
      Effect heap config s .store
        { s with
          shared := { s.shared with frontierByte := frontierByte }
          coordinator := none }
  | join {order : List ConnectionRecord} (hnone : s.result = none)
      (hstopped : ∀ w ∈ s.workers, w.phase.stopped = true)
      (hperm : order.Perm s.shared.connections) :
      Effect heap config s (.join order)
        { s with
          events := s.events.sendAll (order.map fun conn => .connectionLifecycle conn.lifecycle)
          result := some
            { totalBytes := s.shared.totalBytes
              totalRequests := s.shared.totalRequests
              totalConnections := s.shared.connections.length
              connections := order
              failedChunks := s.shared.failedChunks
              retriedChunks := s.shared.retriedChunks } }

/-- A worker in its loop control holds nothing. -/
theorem held_of_idle {phase : Phase} (h : phase.idle = true) : phase.held = none := by
  cases phase <;> first | rfl | cases h

/-- Every step has one of the effects. -/
theorem effect_of_moves (h : Moves heap config s a s') : Effect heap config s a s' := by
  cases h with
  | tick d => exact .tick d
  | send hw hout => exact .send hw hout
  | assignId hw hout hph => exact .assignId hw hout hph
  | commit hw hout hph => exact .commit hw hout hph
  | work hw hout hlocal => exact .work hw hout (localStep_cases hlocal)
  | perform t hw hout hph => exact .perform t hw hout hph
  | track hrecv => exact .track hrecv
  | receive hnone hrecv => exact .receive hnone hrecv
  | store hsome => exact .store hsome
  | join hnone hstopped hperm => exact .join hnone hstopped hperm
  | checkTime hw hout hph =>
    have hidle : _ = true := congrArg Phase.idle hph
    unfold System.checkTime
    split
    · exact .loop .exited s.now s.shared.chunkQueue true hw hout hidle rfl
        (.idle hout (held_of_idle hidle) (by simp))
    · exact .loop .locking s.now s.shared.chunkQueue s.shared.timeExpired hw hout hidle rfl
        (.idle hout (held_of_idle hidle) (by simp))
  | recheck hw hout hph =>
    have hidle : _ = true := congrArg Phase.idle hph
    unfold System.recheck
    split
    · exact .loop .exited s.now s.shared.chunkQueue s.shared.timeExpired hw hout hidle rfl
        (.idle hout (held_of_idle hidle) (by simp))
    · exact .loop .loopHead s.now s.shared.chunkQueue s.shared.timeExpired hw hout hidle rfl
        (.idle hout (held_of_idle hidle) (by simp))
  | pop ticks hw hout hph =>
    have hidle : _ = true := congrArg Phase.idle hph
    unfold System.popChunk
    split
    · exact .loop .exited s.now s.shared.chunkQueue s.shared.timeExpired hw hout hidle rfl
        (.idle hout (held_of_idle hidle) (by simp))
    · -- The lock was taken in time. Whether a chunk was ready decides the phase.
      refine .loop _ _ _ s.shared.timeExpired hw hout hidle ?_ ?_
      · split <;> rfl
      · split
        · exact .pop hout hph
        · exact .idle hout (held_of_idle hidle) (by simp)

/-- A step leaves the workers alone, or one of them moves. -/
theorem workers_cases (h : Moves heap config s a s') :
    s'.workers = s.workers ∨ ∃ (i : Nat) (w w' : Worker), s.workers[i]? = some w ∧
      WorkerMoves w w' ∧ s'.workers = s.workers.set i w' := by
  cases effect_of_moves h with
  | tick | track | receive | store | join => exact Or.inl rfl
  | loop _ _ _ _ hw _ _ _ hmoves => exact Or.inr ⟨_, _, _, hw, hmoves, rfl⟩
  | send hw hout => exact Or.inr ⟨_, _, _, hw, .send hout, rfl⟩
  | assignId hw hout hph => exact Or.inr ⟨_, _, _, hw, .assignId _ hout hph, rfl⟩
  | commit hw hout hph => exact Or.inr ⟨_, _, _, hw, .commit hout hph, rfl⟩
  | work hw hout hlocal => exact Or.inr ⟨_, _, _, hw, .work hout hlocal, rfl⟩
  | perform t hw hout hph => exact Or.inr ⟨_, _, _, hw, .perform t hout hph, rfl⟩

/-- The invariant rule for a property of single workers. -/
theorem workers_invariant {chunks : List ChunkRequest} {opening : RunStarted}
    {ok : System → Label → Prop}
    {P : Worker → Prop} (h : (benchmark opening heap config chunks).Reachable ok s)
    (hnew : P (.new config.pageSize))
    (hmoves : ∀ w w', P w → WorkerMoves w w' → P w') : ∀ w ∈ s.workers, P w := by
  refine reachable_invariant (P := fun s => ∀ w ∈ s.workers, P w) h ?_ ?_
  · intro w hw
    rw [List.eq_of_mem_replicate hw]
    exact hnew
  · intro s a s' hall _ hm
    rcases workers_cases hm with heq | ⟨i, w, w', hw, hwm, heq⟩
    · rwa [heq]
    · rw [heq]
      exact forall_setWorker hall (hmoves w w' (hall w (List.mem_of_getElem? hw)) hwm)

/-! ### The trace -/

/-- A step appends to the trace, or the tracker takes the next event. Apart from the
announcements of retries and the records of connections, what is appended waited in an
outbox. -/
theorem trace_cases (h : Moves heap config s a s') :
    (∃ new : List TraceEvent, s'.events = s.events.sendAll new ∧ s'.runner = s.runner ∧
      ∀ e ∈ new, (∃ (i : Nat) (w : Worker), s.workers[i]? = some w ∧ w.outbox = some e) ∨
        (∃ r, e = .requestResumed r) ∨ (∃ r, e = .connectionLifecycle r)) ∨
    (∃ event, s.events.recv = some (event, s'.events) ∧
      s'.runner = (s.runner.process event).1) := by
  -- Most steps send nothing.
  have hnil : ∀ {t : System}, t.events = s.events → t.runner = s.runner →
      (∃ new : List TraceEvent, t.events = s.events.sendAll new ∧ t.runner = s.runner ∧
        ∀ e ∈ new, (∃ (i : Nat) (w : Worker), s.workers[i]? = some w ∧ w.outbox = some e) ∨
          (∃ r, e = .requestResumed r) ∨ (∃ r, e = .connectionLifecycle r)) := by
    intro t hevents hrunner
    refine ⟨[], ?_, hrunner, by simp⟩
    rw [hevents, Channel.sendAll, List.append_nil]
  cases effect_of_moves h with
  | tick | loop | assignId | work | perform | receive | store => exact Or.inl (hnil rfl rfl)
  | track hrecv => exact Or.inr ⟨_, hrecv, rfl⟩
  | @send i w event hw hout =>
    refine Or.inl ⟨[event], rfl, rfl, ?_⟩
    intro e he
    rw [List.mem_singleton.mp he]
    exact Or.inl ⟨i, w, hw, hout⟩
  | commit =>
    refine Or.inl ⟨_, rfl, rfl, ?_⟩
    intro e he
    split at he
    · -- A retry is the only fate that is announced.
      exact Or.inr (Or.inl ⟨_, List.mem_singleton.mp he⟩)
    · cases he
  | join =>
    refine Or.inl ⟨_, rfl, rfl, ?_⟩
    intro e he
    obtain ⟨conn, -, rfl⟩ := List.mem_map.mp he
    exact Or.inr (Or.inr ⟨_, rfl⟩)

/-! ### Ingredients of small runs -/

/-- The opening event of a run without an asset. -/
def RunStarted.plain : RunStarted := ⟨"run_0", "", "null", 0⟩

/-- `workers` workers, pages of `pageSize` bytes and no time limit. -/
def ReactorConfig.unlimited (workers pageSize : Nat) : ReactorConfig := ⟨workers, 0, pageSize, 0⟩

/-- curl's answer over one fixed connection. -/
def Transfer.ofCallbacks (callbacks : List Callback) : Transfer where
  callbacks := callbacks
  curlErr := none
  connId := 0
  newConnection := true
  overTls := true
  httpVersion := "1.1"
  localEp := ""
  remoteEp := ""

/-- `n` actions of worker `i`. -/
def Label.advances (i n : Nat) : List Label := List.replicate n (.advance i)

end FrontierSim
