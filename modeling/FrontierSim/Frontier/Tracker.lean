import Mathlib.Init

/-!
# `FrontierSim.Frontier.Tracker`: the contiguous frontier

`FrontierTracker` (`frontier/src/tracker.rs`). The bit vector is a list of `Bool`. The
tracker keeps the index of the first page that is not complete, and `advanceFrontier`
moves it forward from where it stands.
-/

set_option autoImplicit false

namespace FrontierSim

/-- An advance of the frontier on the timeline. -/
structure FrontierEvent where
  tMs : Nat
  contiguousFrontierBytes : Nat
  deltaContiguousBytes : Nat
  deriving DecidableEq, Repr

/-- The tracker: the pages that were reported, and how far they go without a gap. -/
structure FrontierTracker where
  pageSize : Nat
  pages : List Bool
  contiguousFrontierBytes : Nat
  lastFrontierPageIndex : Nat
  events : List FrontierEvent
  deriving DecidableEq, Repr

namespace FrontierTracker

/-- `FrontierTracker::with_page_size`: no page is known. -/
def withPageSize (pageSize : Nat) : FrontierTracker where
  pageSize := pageSize
  pages := []
  contiguousFrontierBytes := 0
  lastFrontierPageIndex := 0
  events := []

/-- `while page_index < pages.len() && pages[page_index] { page_index += 1 }`, where the
list is `pages` from `page_index` on. -/
def skipCompleted : List Bool → Nat → Nat
  | true :: rest, pageIndex => skipCompleted rest (pageIndex + 1)
  | _, pageIndex => pageIndex

/-- `advance_frontier`: walk over the known pages from the frontier on, and record one event for
all of them. -/
def advanceFrontier (tr : FrontierTracker) (tMs : Nat) : FrontierTracker :=
  let previous := tr.contiguousFrontierBytes
  let pageIndex := skipCompleted (tr.pages.drop tr.lastFrontierPageIndex) tr.lastFrontierPageIndex
  let newFrontierBytes := pageIndex * tr.pageSize
  -- The frontier never moves back, so the difference is exact.
  let delta := newFrontierBytes - previous
  { tr with
    lastFrontierPageIndex := pageIndex
    contiguousFrontierBytes := newFrontierBytes
    events := if delta > 0 then
        tr.events ++ [⟨tMs, newFrontierBytes, delta⟩]
      else tr.events }

/-- `Vec::resize(len, false)` where the vector is shorter. -/
def resizePages (pages : List Bool) (len : Nat) : List Bool :=
  pages ++ List.replicate (len - pages.length) false

/-- `on_page_completed`: a page is known, and the frontier may move. -/
def onPageCompleted (tr : FrontierTracker) (pageIndex tMs : Nat) : FrontierTracker :=
  let pages := resizePages tr.pages (pageIndex + 1)
  { tr with pages := pages.set pageIndex true }.advanceFrontier tMs

/-- `for p in first..=last { pages[p] = true }`, where `count` is the length of the range. -/
def markPages (pages : List Bool) (first count : Nat) : List Bool :=
  (List.range' first count).foldl (fun pages p => pages.set p true) pages

/-- `on_bytes_downloaded`: the pages that lie within the bytes are known, and the frontier may
move. -/
def onBytesDownloaded (tr : FrontierTracker) (absoluteOffset bytesRead tMs : Nat) :
    FrontierTracker :=
  if bytesRead = 0 then tr
  else
    let firstPage := absoluteOffset / tr.pageSize
    let lastPage := (absoluteOffset + bytesRead - 1) / tr.pageSize
    let pages := resizePages tr.pages (lastPage + 1)
    { tr with pages := markPages pages firstPage (lastPage + 1 - firstPage) }.advanceFrontier tMs

end FrontierTracker

end FrontierSim
