import FrontierSim.Lib.Lines
import FrontierSim.Proofs.Replay
import FrontierSim.Proofs.Termination
import FrontierSim.Telemetry.Jsonl

/-!
# `FrontierSim.Proofs.TraceFile`: the trace file tells what was reported

Three threads stand between a worker and the trace file: the tracker thread, the writer and the
`BufWriter` of the writer. `trace_file_reproduces` says what can be relied on, in any
interleaving and with I/O errors at any point. The complete lines of the file are always the first
events of the tracker's output, from the `run_started` of the command on, also when the file is cut
off inside a line. When the writer returned a count, the file is the whole trace, and
`run_frontier_tracker` on the events in the file gives the trace and the result of the run again.
-/

set_option autoImplicit false

namespace FrontierSim

open Lib

variable {heap : ChunkHeap} {config : ReactorConfig} {chunks : List ChunkRequest}
  {opening : RunStarted} {ok : System → Label → Prop} {s s' : System} {a : Label}

/-! ### The end of the trace -/

/-- The reactor announces no advance. -/
theorem advanced?_of_sent (h : (benchmark opening heap config chunks).Reachable ok s) :
    ∀ event ∈ s.events.sent, event.advanced? = none := by
  refine reachable_invariant_of (J := fun s => ∀ w ∈ s.workers, w.Fits)
    (P := fun s => ∀ event ∈ s.events.sent, event.advanced? = none) h
    (fun _ hs w hw => (consistent_reachable hs w hw).2)
    (fun event hevent => List.mem_singleton.mp hevent ▸ rfl) ?_
  intro s a s' hfits _ hsent _ hmoves
  rcases trace_cases hmoves with ⟨new, hevents, -, hnew⟩ | ⟨event, hrecv, -⟩
  · rw [hevents, Channel.sent_sendAll]
    intro event hevent
    rcases List.mem_append.mp hevent with hold | hevent
    · exact hsent event hold
    · rcases hnew event hevent with ⟨i, ⟨handler, phase, outbox⟩, hw, hout⟩ | ⟨r, rfl⟩ | ⟨r, rfl⟩
      · cases hfits _ (List.mem_of_getElem? hw) event hout <;> rfl
      · rfl
      · rfl
  · rw [(Channel.past_recv hrecv).2]
    exact hsent

/-- `run_parallel` returns when all workers have ended, and they stay so. -/
theorem stopped_of_joined (h : (benchmark opening heap config chunks).Reachable ok s)
    (hjoined : s.result.isSome = true) : s.Stopped := by
  refine reachable_invariant_of (J := fun s => ∀ w ∈ s.workers, w.Fits)
    (P := fun s => s.result.isSome = true → s.Stopped) h
    (fun _ hs w hw => (consistent_reachable hs w hw).2) ?_ ?_ hjoined
  · intro hnone
    cases hnone
  intro s a s' hfits _ hstopped _ hmoves hjoined'
  by_cases hjoined : s.result.isSome = true
  · exact stopped_step hfits (hstopped hjoined) hmoves
  · cases effect_of_moves hmoves with
    | join _ hall => exact hall
    | _ => exact absurd hjoined' hjoined

/-- When the trace is closed it stays as it is. -/
theorem closed_step (h : (benchmark opening heap config chunks).Reachable ok s) (hclosed : s.Closed)
    (hmoves : Moves heap config s a s') : s'.Closed ∧ s'.runner = s.runner := by
  obtain ⟨hjoined, hrecv⟩ := hclosed
  have hother := worker?_of_stopped (fun w hw => (consistent_reachable h w hw).2)
    (stopped_of_joined h hjoined) hmoves
  cases hmoves with
  | tick | receive | store => exact ⟨⟨hjoined, hrecv⟩, rfl⟩
  | track hsome => cases hrecv.symm.trans hsome
  | join hnone =>
    rw [hnone] at hjoined
    cases hjoined
  | _ => cases hother

/-- When the trace is closed, the tracker thread has taken all of it. -/
theorem past_of_closed (hclosed : s.Closed) : s.events.past = s.events.sent := by
  have hfuture := (recv_eq_none_iff s.events).mp hclosed.2
  rw [Channel.past, List.take_of_length_le (List.drop_eq_nil_iff.mp hfuture)]

/-- An event is added to the output, and an advance before it. -/
theorem process_prefix (r : Runner) (event : TraceEvent) :
    r.output <+: (r.process event).1.output := by
  cases event with
  | pageCompleted e =>
    simp only [Runner.process, Runner.processPage]
    split <;> exact List.prefix_append _ _
  | _ => exact List.prefix_append _ _

/-- Events are added to the output one after the other. -/
theorem processAll_prefix (r : Runner) (events : List TraceEvent) :
    r.output <+: (r.processAll events).output := by
  induction events generalizing r with
  | nil => exact List.prefix_rfl
  | cons event rest ih =>
    have hfirst := process_prefix r event
    exact hfirst.trans (ih (r.process event).1)

/-- The output only grows. -/
theorem output_prefix (hmoves : Moves heap config s a s') :
    s.runner.output <+: s'.runner.output := by
  rcases trace_cases hmoves with ⟨-, -, hrunner, -⟩ | ⟨event, -, hrunner⟩
  · rw [hrunner]
  · rw [hrunner]
    exact process_prefix _ event

/-- The event that the command sent before the threads started is the first one in the channel. -/
theorem opening_sent (h : (benchmark opening heap config chunks).Reachable ok s) :
    [.runStarted opening] <+: s.events.sent := by
  refine reachable_invariant (P := fun s => [.runStarted opening] <+: s.events.sent) h
    List.prefix_rfl ?_
  intro s a s' hsent _ hmoves
  rcases trace_cases hmoves with ⟨new, hevents, -⟩ | ⟨event, hrecv, -⟩
  · rw [hevents, Channel.sent_sendAll]
    exact hsent.trans (List.prefix_append _ new)
  · rw [(Channel.past_recv hrecv).2]
    exact hsent

/-- The first event of the output is the one that the command sent. -/
theorem opening_output (h : (benchmark opening heap config chunks).Reachable ok s) :
    ∀ event ∈ s.runner.output.head?, event = .runStarted opening := by
  obtain ⟨rest, hsent⟩ := opening_sent h
  rw [runner_reachable h, Channel.past, ← hsent]
  cases s.events.received with
  | zero =>
    intro event hevent
    cases hevent
  | succ n =>
    -- After the first event the output only grows.
    obtain ⟨more, hmore⟩ := processAll_prefix
      ((Runner.new config.pageSize).process (.runStarted opening)).1 (rest.take n)
    intro event hevent
    have houtput : ((Runner.new config.pageSize).processAll
        (([TraceEvent.runStarted opening] ++ rest).take (n + 1))).output
          = [TraceEvent.runStarted opening] ++ more :=
      hmore.symm
    rw [houtput] at hevent
    exact (Option.mem_some_iff.mp hevent).symm

/-! ### The writer -/

section
variable {toWriter : TraceEvent → List Char} {ts ts' : TracedSystem}

/-- What the writer has done. The lines of the events that it took are in the buffer, and after
an error a part of the next line. -/
structure WroteLines (toWriter : TraceEvent → List Char) (ts : TracedSystem) : Prop where
  taken : ts.taken ≤ ts.system.runner.output.length
  count : ts.writer.count = ts.taken
  flushed : ts.writer.flushed ≤ ts.writer.buffered.length
  buffered : ∃ rest, ts.writer.buffered
      = terminate '\n' ((ts.system.runner.output.take ts.taken).map toWriter) ++ rest ∧
    (rest = [] ∨ ts.writer.status = .failed ∧
      ∃ event ∈ ts.system.runner.output, rest <+: toWriter event)
  wrote : ∀ count, ts.writer.status = .wrote count →
    ts.system.Closed ∧ count = ts.system.runner.output.length ∧
      ts.taken = ts.system.runner.output.length ∧ ts.writer.flushed = ts.writer.buffered.length

/-- Before its first event the writer has written nothing. -/
theorem wroteLines_start : WroteLines toWriter ⟨.start opening heap config chunks, 0, .new⟩ where
  taken := Nat.zero_le _
  count := rfl
  flushed := le_rfl
  buffered := ⟨[], rfl, Or.inl rfl⟩
  wrote count hstatus := by cases hstatus

/-- A step of the benchmark adds to the output at most, so that what the writer took is still its
beginning. When the writer has returned, the trace is closed and no event comes any more. -/
theorem wroteLines_system (h : WroteLines toWriter ts)
    (hreach : (benchmark opening heap config chunks).Reachable ok ts.system)
    (hmoves : Moves heap config ts.system a s') :
    WroteLines toWriter { ts with system := s' } := by
  have hfront := output_prefix hmoves
  constructor
  case taken => exact h.taken.trans hfront.length_le
  case count => exact h.count
  case flushed => exact h.flushed
  case buffered =>
    obtain ⟨rest, hbuffered, hrest⟩ := h.buffered
    obtain ⟨more, hmore⟩ := hfront
    refine ⟨rest, ?_, ?_⟩
    · show ts.writer.buffered
        = terminate '\n' ((s'.runner.output.take ts.taken).map toWriter) ++ rest
      rw [← hmore, List.take_append_of_le_length h.taken, hbuffered]
    · rcases hrest with hnil | ⟨hfailed, event, hevent, hcut⟩
      · exact Or.inl hnil
      · exact Or.inr ⟨hfailed, event, hmore ▸ List.mem_append_left more hevent, hcut⟩
  case wrote =>
    intro count hstatus
    obtain ⟨hclosed, hcount, htaken, hflushed⟩ := h.wrote count hstatus
    obtain ⟨hclosed', hrunner⟩ := closed_step hreach hclosed hmoves
    show s'.Closed ∧ count = s'.runner.output.length ∧ ts.taken = s'.runner.output.length ∧ _
    rw [hrunner]
    exact ⟨hclosed', hcount, htaken, hflushed⟩

/-- A running writer has written whole lines. -/
theorem WroteLines.buffered_of_running (h : WroteLines toWriter ts)
    (hrunning : ts.writer.status = .running) :
    ts.writer.buffered = terminate '\n' ((ts.system.runner.output.take ts.taken).map toWriter) := by
  obtain ⟨rest, hbuffered, hnil | ⟨hfailed, -⟩⟩ := h.buffered
  · rw [hbuffered, hnil, List.append_nil]
  · cases hrunning.symm.trans hfailed

/-- One step of any thread keeps the lines in order. The writer takes the next event of the output,
a flush moves the end of the file within the buffer, and after an error nothing more is written. -/
theorem wroteLines_step (h : WroteLines toWriter ts)
    (hreach : (benchmark opening heap config chunks).Reachable ok ts.system) {b : TracedLabel}
    (hstep : TracedSystem.step heap config toWriter b ts = some ts') : WroteLines toWriter ts' := by
  cases b with
  | system a =>
    obtain ⟨s', hs', rfl⟩ := Option.map_eq_some_iff.mp hstep
    exact wroteLines_system h hreach (moves_of_step hs')
  | write =>
    obtain ⟨hrunning, hstep⟩ := Option.ite_none_right_eq_some.mp hstep
    obtain ⟨event, hevent, rfl⟩ := Option.map_eq_some_iff.mp hstep
    obtain ⟨hlt, -⟩ := List.getElem?_eq_some_iff.mp hevent
    have hbuffered := h.buffered_of_running hrunning
    constructor
    case taken => exact hlt
    case count => exact congrArg (· + 1) h.count
    case flushed =>
      refine h.flushed.trans ?_
      show _ ≤ (ts.writer.buffered ++ _).length
      rw [List.length_append]
      exact Nat.le_add_right _ _
    case buffered =>
      refine ⟨[], ?_, Or.inl rfl⟩
      show ts.writer.buffered ++ (toWriter event ++ ['\n'])
        = terminate '\n' ((ts.system.runner.output.take (ts.taken + 1)).map toWriter) ++ []
      have hevent : ts.system.runner.output[ts.taken]? = some event := hevent
      rw [List.take_add_one, hevent, Option.toList_some, List.map_append, List.map_singleton,
        terminate_concat, hbuffered, List.append_nil]
    case wrote =>
      intro count hstatus
      cases hrunning.symm.trans hstatus
  | flush n =>
    obtain ⟨⟨hmore, hle⟩, hsome⟩ := Option.ite_none_right_eq_some.mp hstep
    obtain rfl := Option.some.inj hsome
    constructor
    case taken => exact h.taken
    case count => exact h.count
    case flushed => exact hle
    case buffered => exact h.buffered
    case wrote =>
      intro count hstatus
      obtain ⟨hclosed, hcount, htaken, hflushed⟩ := h.wrote count hstatus
      exact ⟨hclosed, hcount, htaken, hle.antisymm (hflushed ▸ hmore)⟩
  | fail kept =>
    obtain ⟨hrunning, hsome⟩ := Option.ite_none_right_eq_some.mp hstep
    obtain rfl := Option.some.inj hsome
    have hbuffered := h.buffered_of_running hrunning
    constructor
    case taken => exact h.taken
    case count => exact h.count
    case flushed =>
      refine h.flushed.trans ?_
      show _ ≤ (ts.writer.buffered ++ _).length
      rw [List.length_append]
      exact Nat.le_add_right _ _
    case buffered =>
      refine ⟨(ts.next.elim [] toWriter).take kept, congrArg (· ++ _) hbuffered, ?_⟩
      cases hnext : ts.next with
      | none => exact Or.inl (List.take_nil)
      | some event =>
        exact Or.inr ⟨rfl, event, List.mem_of_getElem? hnext, List.take_prefix _ _⟩
    case wrote =>
      intro count hstatus
      cases hstatus
  | finish =>
    obtain ⟨⟨hrunning, hclosed, hnext⟩, hsome⟩ := Option.ite_none_right_eq_some.mp hstep
    obtain rfl := Option.some.inj hsome
    have hall : ts.taken = ts.system.runner.output.length :=
      h.taken.antisymm (List.getElem?_eq_none_iff.mp hnext)
    constructor
    case taken => exact h.taken
    case count => exact h.count
    case flushed => exact le_rfl
    case buffered =>
      exact ⟨[], (h.buffered_of_running hrunning).trans (List.append_nil _).symm, Or.inl rfl⟩
    case wrote =>
      intro count hstatus
      cases hstatus
      exact ⟨hclosed, h.count.trans hall, hall, rfl⟩

/-- The writer does not disturb the benchmark. -/
theorem wroteLines_reachable (h : (tracedBenchmark opening heap config chunks toWriter).Reachable
      TransitionSystem.any ts) :
    (benchmark opening heap config chunks).Reachable TransitionSystem.any ts.system ∧
      WroteLines toWriter ts := by
  have hstart : (benchmark opening heap config chunks).Reachable TransitionSystem.any
      (System.start opening heap config chunks) := .refl
  refine h.invariant
    (P := fun ts =>
      (benchmark opening heap config chunks).Reachable TransitionSystem.any ts.system ∧
      WroteLines toWriter ts) ⟨hstart, wroteLines_start⟩ ?_
  rintro ts b ts' ⟨hreach, hwrote⟩ - hstep
  refine ⟨?_, wroteLines_step hwrote hreach hstep⟩
  cases b with
  | system a =>
    obtain ⟨s', hs', rfl⟩ := Option.map_eq_some_iff.mp hstep
    exact hreach.tail trivial hs'
  | write =>
    obtain ⟨-, hstep⟩ := Option.ite_none_right_eq_some.mp hstep
    obtain ⟨event, -, rfl⟩ := Option.map_eq_some_iff.mp hstep
    exact hreach
  | flush | fail | finish =>
    obtain ⟨-, hsome⟩ := Option.ite_none_right_eq_some.mp hstep
    obtain rfl := Option.some.inj hsome
    exact hreach

/-! ### Reading the file -/

/-- What the file says about the run. `fromStr` reads a line. -/
structure TellsRun (opening : RunStarted) (fromStr : List Char → Option TraceEvent)
    (pageSize : Nat) (ts : TracedSystem) : Prop where
  /-- The first complete line is the event that the command sent. -/
  first : ∀ line ∈ (completed '\n' ts.writer.file).head?, fromStr line = some (.runStarted opening)
  /-- The complete lines are the first events of the output. -/
  lines : ∃ n, (completed '\n' ts.writer.file).map fromStr
    = (ts.system.runner.output.take n).map some
  /-- When the writer has returned a count, they are the whole output, and from them the trace
  and the result are computed again. -/
  whole : ∀ count, ts.writer.status = .wrote count →
    count = ts.system.runner.output.length ∧
    ∃ trace, (completed '\n' ts.writer.file).map fromStr = trace.map some ∧
      trace.filter (fun event => event.advanced?.isNone) = ts.system.events.sent ∧
      ∀ (runConfig : FrontierRunConfig) (wallElapsedMs measuredAtMs : Nat),
        runConfig.pageSize = pageSize →
        runFrontierTracker runConfig (trace.filter fun event => event.advanced?.isNone)
            wallElapsedMs measuredAtMs
          = (trace, ts.system.runner.tracker.runResult runConfig wallElapsedMs measuredAtMs)

/-- The lines of a list of events are read back. -/
theorem map_fromStr {fromStr : List Char → Option TraceEvent} {events : List TraceEvent}
    (hread : ∀ event ∈ events, fromStr (toWriter event) = some event) :
    (events.map toWriter).map fromStr = events.map some := by
  rw [List.map_map]
  exact List.map_congr_left hread

/-- The events of the channel, among those of the output. -/
theorem filter_output (h : (benchmark opening heap config chunks).Reachable ok s) :
    s.runner.output.filter (fun event => event.advanced?.isNone) = s.events.past := by
  obtain ⟨trace, htrace, hcomplete, -⟩ := announces_processAll (r := .new config.pageSize)
    s.events.past (fun event hevent => advanced?_of_sent h event (List.mem_of_mem_take hevent))
    (tracks_withPageSize config.pageSize)
  rw [runner_reachable h, htrace]
  exact hcomplete

/-- In any interleaving of the threads and with I/O errors at any point: the complete lines of the
trace file are the first events that the tracker thread sent, from `run_started` on. When the
writer returned a count, the file is the whole trace, and `run_frontier_tracker` on the events in
the file gives the trace and the result of the run again. -/
theorem trace_file_reproduces {fromStr : List Char → Option TraceEvent}
    (h : (tracedBenchmark opening heap config chunks toWriter).Reachable TransitionSystem.any ts)
    (hline : ∀ event ∈ ts.system.runner.output, '\n' ∉ toWriter event)
    (hread : ∀ event ∈ ts.system.runner.output, fromStr (toWriter event) = some event) :
    TellsRun opening fromStr config.pageSize ts := by
  obtain ⟨hreach, hwrote⟩ := wroteLines_reachable h
  obtain ⟨rest, hbuffered, hrest⟩ := hwrote.buffered
  have hrecords : ∀ line ∈ (ts.system.runner.output.take ts.taken).map toWriter, '\n' ∉ line := by
    intro line hmem
    obtain ⟨event, hevent, rfl⟩ := List.mem_map.mp hmem
    exact hline event (List.mem_of_mem_take hevent)
  have htorn : '\n' ∉ rest := by
    rcases hrest with rfl | ⟨-, event, hevent, hcut⟩
    · exact List.not_mem_nil
    · exact fun hmem => hline event hevent (hcut.subset hmem)
  have hlines : ∃ n, (completed '\n' ts.writer.file).map fromStr
      = (ts.system.runner.output.take n).map some := by
    have hcut : ts.writer.file
        <+: terminate '\n' ((ts.system.runner.output.take ts.taken).map toWriter) ++ rest :=
      hbuffered ▸ List.take_prefix _ _
    obtain ⟨events, hevents, hmap⟩ :=
      List.prefix_map_iff.mp (completed_of_truncated hrecords htorn hcut)
    have hfront := hevents.trans (List.take_prefix _ _)
    refine ⟨events.length, ?_⟩
    rw [hmap, ← List.prefix_iff_eq_take.mp hfront]
    exact map_fromStr fun event hevent => hread event (hfront.subset hevent)
  constructor
  case lines => exact hlines
  case first =>
    intro line hfirst
    obtain ⟨n, htold⟩ := hlines
    have hhead := congrArg List.head? htold
    rw [List.head?_map, List.head?_map, Option.mem_def.mp hfirst, Option.map_some] at hhead
    obtain ⟨event, hevent, hline⟩ := Option.map_eq_some_iff.mp hhead.symm
    rw [List.head?_take] at hevent
    split at hevent
    · cases hevent
    · rw [← hline, opening_output hreach event hevent]
  case whole =>
    intro count hstatus
    obtain ⟨hclosed, hcount, htaken, hflushed⟩ := hwrote.wrote count hstatus
    have hfilter := filter_output hreach
    refine ⟨hcount, ts.system.runner.output, ?_, hfilter.trans (past_of_closed hclosed), ?_⟩
    · have hfile : ts.writer.file = ts.writer.buffered := by
        rw [JsonlWriter.file, hflushed, List.take_length]
      rw [hfile, hbuffered, completed_terminate hrecords htorn, htaken, List.take_length]
      exact map_fromStr hread
    · intro runConfig wallElapsedMs measuredAtMs hpage
      rw [hfilter]
      exact runFrontierTracker_past hreach hpage wallElapsedMs measuredAtMs

end

/-! ### A file -/

/-- A string of JSON, without escapes. -/
def jsonString (s : String) : List Char := '"' :: (s.toList ++ ['"'])

/-- A signed integer of JSON. -/
def jsonInt (n : Int) : List Char :=
  if n < 0 then '-' :: Text.decimal n.natAbs else Text.decimal n.natAbs

/-- A truth value of JSON. -/
def jsonBool (b : Bool) : List Char := if b then "true".toList else "false".toList

/-- A lane in snake case, as serde renames it. -/
def Lane.json : Lane → List Char
  | .urgent => jsonString "urgent"
  | .prefetch => jsonString "prefetch"

/-- An error class in snake case, as serde renames it. -/
def ErrorClass.json : ErrorClass → List Char
  | .timeout => jsonString "timeout"
  | .connectionReset => jsonString "connection_reset"
  | .dnsFailure => jsonString "dns_failure"
  | .tlsFailure => jsonString "tls_failure"
  | .httpError => jsonString "http_error"
  | .recvError => jsonString "recv_error"
  | .cancelled => jsonString "cancelled"
  | .other => jsonString "other"

/-- The tag and the fields of an event, in the order of the source. -/
def TraceEvent.fields : TraceEvent → String × List (String × List Char)
  | .runStarted e =>
    ("run_started",
      [("run_id", jsonString e.runId), ("asset_key", jsonString e.assetKey),
        ("config", e.config.toList), ("timestamp_ns", Text.decimal e.timestampNs)])
  | .requestStarted e =>
    ("request_started",
      [("request_id", Text.decimal e.requestId), ("chunk_id", Text.decimal e.chunkId),
        ("lane", e.lane.json), ("attempt", Text.decimal e.attempt),
        ("requested_range", jsonString e.requestedRange),
        ("timestamp_ns", Text.decimal e.timestampNs)])
  | .requestPrereq e =>
    ("request_prereq",
      [("request_id", Text.decimal e.requestId), ("connection_id", jsonInt e.connectionId),
        ("new_connection", jsonBool e.newConnection),
        ("local_endpoint", jsonString e.localEndpoint),
        ("remote_endpoint", jsonString e.remoteEndpoint), ("protocol", jsonString e.protocol),
        ("timestamp_ns", Text.decimal e.timestampNs)])
  | .pageCompleted e =>
    ("page_completed",
      [("request_id", Text.decimal e.requestId), ("chunk_id", Text.decimal e.chunkId),
        ("page_index", Text.decimal e.pageIndex),
        ("page_start_byte", Text.decimal e.pageStartByte),
        ("page_end_byte", Text.decimal e.pageEndByte), ("page_bytes", Text.decimal e.pageBytes),
        ("cumulative_bytes", Text.decimal e.cumulativeBytes),
        ("timestamp_ns", Text.decimal e.timestampNs)])
  | .requestResumed e =>
    ("request_resumed",
      [("request_id", Text.decimal e.requestId), ("suffix_range", jsonString e.suffixRange),
        ("attempt", Text.decimal e.attempt), ("timestamp_ns", Text.decimal e.timestampNs)])
  | .requestFinished e =>
    ("request_finished",
      [("request_id", Text.decimal e.requestId), ("total_bytes", Text.decimal e.totalBytes)] ++
        -- The times that curl measured, as if they were zero.
        (["dns_ms", "connect_ms", "tls_ms", "ttfb_ms", "queue_ms", "total_ms"].map
          fun name => (name, "0.0".toList)) ++
        [("http_version", jsonString e.httpVersion), ("connection_id", jsonInt e.connectionId),
          ("new_connection", jsonBool e.newConnection)] ++
        (e.errorClass.map fun c => ("error_class", c.json)).toList ++
        [("timestamp_ns", Text.decimal e.timestampNs)])
  | .frontierAdvanced e =>
    ("frontier_advanced",
      [("frontier_byte", Text.decimal e.frontierByte),
        ("frontier_page", Text.decimal e.frontierPage),
        ("contiguous_bytes", Text.decimal e.contiguousBytes),
        ("timestamp_ns", Text.decimal e.timestampNs)])
  | .connectionLifecycle e =>
    ("connection_lifecycle",
      [("connection_id", jsonInt e.connectionId), ("protocol", jsonString e.protocol),
        ("local_endpoint", jsonString e.localEndpoint),
        ("remote_endpoint", jsonString e.remoteEndpoint),
        ("requests_count", Text.decimal e.requestsCount),
        ("bytes_total", Text.decimal e.bytesTotal), ("first_use_ns", Text.decimal e.firstUseNs),
        ("last_use_ns", Text.decimal e.lastUseNs)])

/-- An event as JSON, when no string in it has a character that is escaped. -/
def TraceEvent.json (event : TraceEvent) : List Char :=
  "\x7b\"event_type\":".toList ++ jsonString event.fields.1 ++
    (event.fields.2.flatMap fun (name, value) => ',' :: (jsonString name ++ ':' :: value)) ++
    "\x7d".toList

/-- One page is fetched. -/
def onePage : List Label :=
  [.advance 0, .pop 0 []] ++ Label.advances 0 3 ++ [.perform 0 (.ofCallbacks [.write 4])] ++
    Label.advances 0 10 ++ [.pop 0 []] ++ Label.advances 0 1 ++
    [.join [⟨0, "https/1.1", "", "", 0, 0, 1, 4⟩]] ++ List.replicate 6 .track

/-- The file has seven lines in the end. In between it ended inside the second one. -/
theorem trace_file_reproduces_one_page :
    ∃ ts fromStr, (tracedBenchmark .plain .ofList (.unlimited 1 4) [⟨0, 0, 3, .urgent⟩]
        TraceEvent.json).Reachable TransitionSystem.any ts ∧
      ts.writer.status = .wrote 7 ∧ TellsRun .plain fromStr 4 ts := by
  obtain ⟨ts, hts, hstatus, hline, hread⟩ := TransitionSystem.exists_reachable_of_run
    (tracedBenchmark .plain .ofList (.unlimited 1 4) [⟨0, 0, 3, .urgent⟩] TraceEvent.json)
    TransitionSystem.any
    (onePage.map .system ++ [.write, .write, .flush 100] ++ List.replicate 5 .write ++ [.finish])
    (P := fun ts => ts.writer.status = .wrote 7 ∧
      (∀ event ∈ ts.system.runner.output, '\n' ∉ event.json) ∧
      ∀ event ∈ ts.system.runner.output,
        ts.system.runner.output.find? (fun e => e.json == event.json) = some event)
    (by decide +kernel)
  exact ⟨ts, fun line => ts.system.runner.output.find? fun e => e.json == line, hts, hstatus,
    trace_file_reproduces hts hline hread⟩

end FrontierSim
