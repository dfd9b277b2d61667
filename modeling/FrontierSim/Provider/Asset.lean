import FrontierSim.Lib.Text
import Mathlib.Algebra.Ring.Int.Defs

/-!
# `FrontierSim.Provider.Asset`: assets and their keys

`AssetKey`, `AssetRef`, `ResolvedAsset` and `ProviderError` (`provider/src/lib.rs`), and the
file name helpers that both providers have a copy of.

Texts are lists of characters. A cast between integer types keeps the low bits.
-/

set_option autoImplicit false

namespace FrontierSim

open Lib

/-- Stable identity for a debrid asset. -/
structure AssetKey where
  provider : List Char
  itemId : List Char
  fileIndex : Option Nat
  sizeBytes : Nat
  deriving DecidableEq, Repr

/-- `AssetKey::canonical`: provider, item and size with colons between them, and the file index
before the size when there is one. -/
def AssetKey.canonical (key : AssetKey) : List Char :=
  match key.fileIndex with
  | some idx =>
    key.provider ++ ':' :: (key.itemId ++ ':' ::
      (Text.decimal idx ++ ':' :: Text.decimal key.sizeBytes))
  | none => key.provider ++ ':' :: (key.itemId ++ ':' :: Text.decimal key.sizeBytes)

/-- A candidate asset for benchmarking. -/
structure AssetRef where
  key : AssetKey
  filename : List Char
  deriving DecidableEq, Repr

/-- An asset with a URL that can be downloaded directly. -/
structure ResolvedAsset where
  key : AssetKey
  directUrl : List Char
  filename : List Char
  sizeBytes : Nat
  resolvedAtMs : Nat
  deriving DecidableEq, Repr

/-- `ProviderError`, with the texts that the adapters build. -/
inductive ProviderError
  | authFailed (message : List Char)
  | notFound (message : List Char)
  | rateLimited (retryAfterSecs : Nat)
  | network (message : List Char)
  | other (message : List Char)
  deriving DecidableEq, Repr

/-- `n as u32`. -/
def asU32 (n : Int) : Nat := (n % 2 ^ 32).toNat

/-- `n as u64`. -/
def asU64 (n : Int) : Nat := (n % 2 ^ 64).toNat

/-! ### File names -/

/-- The extensions that count as video. -/
def VIDEO_EXTENSIONS : List (List Char) :=
  [".mkv", ".mp4", ".avi", ".mov", ".wmv", ".ts", ".m2ts", ".webm", ".mpg", ".mpeg"].map
    String.toList

/-- The last component of a path. -/
def extractFilename (path : Option (List Char)) : Option (List Char) := do
  let p := Text.trimEndMatches '/' (Text.trim (← path))
  if p.isEmpty then none else some (Text.rsplitNext '/' p)

/-- The name ends in a video extension. -/
def hasVideoExtension (filename : Option (List Char)) : Bool :=
  let name := Text.lowercase (filename.getD [])
  VIDEO_EXTENSIONS.any fun ext => Text.endsWith name ext

/-- Larger assets first. The sort is stable. -/
def sortBySize (candidates : List AssetRef) : List AssetRef :=
  candidates.mergeSort fun a b => decide (b.key.sizeBytes ≤ a.key.sizeBytes)

end FrontierSim
