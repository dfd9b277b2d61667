import FrontierSim.Benchmark
import FrontierSim.Cli.Config
import FrontierSim.Cli.Plan
import FrontierSim.Cli.Store
import FrontierSim.Cli.Target
import FrontierSim.Faults
import FrontierSim.Frontier.Budget
import FrontierSim.Frontier.Result
import FrontierSim.Frontier.Runner
import FrontierSim.Frontier.Tracker
import FrontierSim.Lib.Bisection
import FrontierSim.Lib.Channel
import FrontierSim.Lib.DeliveryCurve
import FrontierSim.Lib.FairRun
import FrontierSim.Lib.FirstGap
import FrontierSim.Lib.Gaps
import FrontierSim.Lib.Grouping
import FrontierSim.Lib.LaggedView
import FrontierSim.Lib.Lines
import FrontierSim.Lib.MaxHeap
import FrontierSim.Lib.PlayoutBuffer
import FrontierSim.Lib.Scripts
import FrontierSim.Lib.Text
import FrontierSim.Lib.TransitionSystem
import FrontierSim.Lib.Traversal
import FrontierSim.Lib.U64
import FrontierSim.Lib.WorkQueue
import FrontierSim.Proofs.Aggregation
import FrontierSim.Proofs.Announcements
import FrontierSim.Proofs.Attempts
import FrontierSim.Proofs.Batch
import FrontierSim.Proofs.Blocker
import FrontierSim.Proofs.Canonical
import FrontierSim.Proofs.Clock
import FrontierSim.Proofs.Completeness
import FrontierSim.Proofs.Conservation
import FrontierSim.Proofs.Credit
import FrontierSim.Proofs.Deadline
import FrontierSim.Proofs.Delivery
import FrontierSim.Proofs.Dispatch
import FrontierSim.Proofs.EndToEnd
import FrontierSim.Proofs.Faults
import FrontierSim.Proofs.Feedback
import FrontierSim.Proofs.Fetches
import FrontierSim.Proofs.Handler
import FrontierSim.Proofs.Ledger
import FrontierSim.Proofs.Once
import FrontierSim.Proofs.Overflow
import FrontierSim.Proofs.Pacing
import FrontierSim.Proofs.Pages
import FrontierSim.Proofs.Pairing
import FrontierSim.Proofs.Partition
import FrontierSim.Proofs.Plan
import FrontierSim.Proofs.Playable
import FrontierSim.Proofs.Playback
import FrontierSim.Proofs.Probe
import FrontierSim.Proofs.Replay
import FrontierSim.Proofs.Reports
import FrontierSim.Proofs.Requests
import FrontierSim.Proofs.RunStore
import FrontierSim.Proofs.Search
import FrontierSim.Proofs.Selection
import FrontierSim.Proofs.Sequential
import FrontierSim.Proofs.Settling
import FrontierSim.Proofs.Shutdown
import FrontierSim.Proofs.SingleRange
import FrontierSim.Proofs.Soundness
import FrontierSim.Proofs.Stalls
import FrontierSim.Proofs.Steps
import FrontierSim.Proofs.Stories
import FrontierSim.Proofs.Summary
import FrontierSim.Proofs.TailDrain
import FrontierSim.Proofs.Targets
import FrontierSim.Proofs.Termination
import FrontierSim.Proofs.Tiling
import FrontierSim.Proofs.Timeline
import FrontierSim.Proofs.TraceFile
import FrontierSim.Proofs.Tracker
import FrontierSim.Proofs.Verdict
import FrontierSim.Provider.Asset
import FrontierSim.Provider.Premiumize
import FrontierSim.Provider.RealDebrid
import FrontierSim.Telemetry.Events
import FrontierSim.Telemetry.Jsonl
import FrontierSim.Telemetry.RunStore
import FrontierSim.Transport.Chunk
import FrontierSim.Transport.Download
import FrontierSim.Transport.DownloadRange
import FrontierSim.Transport.Probe
import FrontierSim.Transport.Reactor
import FrontierSim.Transport.Worker
import FrontierSim.Transport.WorkerHandler
