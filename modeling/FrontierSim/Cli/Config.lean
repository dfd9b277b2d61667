import FrontierSim.Cli.Plan
import FrontierSim.Transport.Reactor

/-!
# `FrontierSim.Cli.Config`: from the configuration to the run

The numbers of `DefaultsConfig` (`cli/src/config.rs`) and of the `Benchmark` command, and the
values that the command derives from them (`cli/src/main.rs`). The types are the only limits:
neither `Config::load` nor the command line checks a range.

`protocol`, `sink` and the paths are left out: no number depends on them.
-/

set_option autoImplicit false

namespace FrontierSim

open Lib

/-- The `[defaults]` section of the configuration file. The sizes are in KB and MB as the file has
them. -/
structure DefaultsConfig where
  chunkSizeMb : UInt32
  prefetchChunkSizeMb : UInt32
  pageSizeKb : UInt32
  urgentWorkers : UInt32
  deriving DecidableEq

/-- The section when the file leaves it out. -/
def DefaultsConfig.default : DefaultsConfig where
  chunkSizeMb := 4
  prefetchChunkSizeMb := 8
  pageSizeKb := 128
  urgentWorkers := 2

/-- The number of prefetch workers of every benchmark. No option changes it. -/
def FIXED_PREFETCH_WORKERS : UInt32 := 1

/-- The options of the command. An option that is not given is `none`. -/
structure BenchmarkArgs where
  duration : UInt64
  maxBytes : UInt64
  chunkSizeMb : Option UInt32
  prefetchChunkSizeMb : Option UInt32
  workers : Option UInt32
  deriving DecidableEq

/-- A command line without options. -/
def BenchmarkArgs.default : BenchmarkArgs where
  duration := 120
  maxBytes := 0
  chunkSizeMb := none
  prefetchChunkSizeMb := none
  workers := none

/-- What a benchmark starts from: the configuration, the options and the probed length. -/
structure BenchmarkInput where
  defaults : DefaultsConfig
  args : BenchmarkArgs
  contentLength : Option UInt64
  deriving DecidableEq

namespace BenchmarkInput

variable (b : BenchmarkInput)

/-- The page size in bytes. -/
def pageSize : Nat := b.defaults.pageSizeKb.toNat * 1024

/-- The size of urgent chunks in bytes. An option on the command line replaces the default. -/
def urgentChunkSize : Nat :=
  (b.args.chunkSizeMb.getD b.defaults.chunkSizeMb).toNat * 1024 * 1024

/-- The size of prefetch chunks in bytes, chosen as for urgent ones. -/
def prefetchChunkSize : Nat :=
  (b.args.prefetchChunkSizeMb.getD b.defaults.prefetchChunkSizeMb).toNat * 1024 * 1024

/-- The number of urgent workers, from the command line or else from the defaults. -/
def urgentWorkers : Nat := (b.args.workers.getD b.defaults.urgentWorkers).toNat

/-- A length that is not known counts as `u64::MAX`. -/
def fileSize : Nat := b.contentLength.elim U64.maxValue UInt64.toNat

/-- The number of bytes to fetch: the file, or its first part when the command line limits it. -/
def downloadSize : Nat :=
  if b.args.maxBytes > 0 then min b.args.maxBytes.toNat b.fileSize else b.fileSize

/-- The chunks that the command hands to the reactor. -/
def plan : Option (List ChunkRequest) :=
  buildBenchmarkChunks b.downloadSize b.urgentChunkSize b.prefetchChunkSize

/-- The configuration that the command hands to the reactor. -/
def reactorConfig : ReactorConfig where
  urgentWorkers := b.urgentWorkers
  prefetchWorkers := FIXED_PREFETCH_WORKERS.toNat
  pageSize := b.pageSize
  maxDuration := b.args.duration.toNat * 1000000000

/-- The worker count of `run_parallel`, as a sum of two `u32`. -/
def maxConcurrent : Option Nat :=
  U32.checkedAdd b.urgentWorkers FIXED_PREFETCH_WORKERS.toNat

/-- The multiplication in `pageSize` does not overflow, since the setting has 32 bits. -/
theorem pageSize_lt : b.pageSize < 2 ^ 42 := by
  have := b.defaults.pageSizeKb.toNat_lt
  simp only [pageSize]
  omega

/-- A chunk size stays far below `2 ^ 64`, so that the plan can add it to an offset within the
file. -/
theorem urgentChunkSize_lt : b.urgentChunkSize < 2 ^ 52 := by
  have := (b.args.chunkSizeMb.getD b.defaults.chunkSizeMb).toNat_lt
  simp only [urgentChunkSize]
  omega

/-- The size of the file fits into 64 bits, as the probe delivers it. -/
theorem fileSize_lt : b.fileSize < 2 ^ 64 := by
  unfold fileSize
  cases b.contentLength with
  | none => decide
  | some length => exact length.toNat_lt

/-- The download is not larger than the file. -/
theorem downloadSize_lt : b.downloadSize < 2 ^ 64 := by
  have := b.fileSize_lt
  unfold downloadSize
  split <;> omega

end BenchmarkInput

end FrontierSim
