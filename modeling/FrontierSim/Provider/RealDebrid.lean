import FrontierSim.Provider.Asset

/-!
# `FrontierSim.Provider.RealDebrid`: the Real-Debrid adapter

`list_candidates` and `resolve_direct_url` of `RealDebridProvider`
(`provider/src/realdebrid.rs`). The HTTP calls are parameters: `torrents` and `info` are the
answers to the two GET requests, and `unrestrict` is the answer to the POST with a link.
-/

set_option autoImplicit false

namespace FrontierSim

open Lib

/-- A torrent of the account, as `/torrents` lists it. -/
structure RdTorrent where
  id : List Char
  status : Option (List Char)
  deriving DecidableEq, Repr

/-- A file of a torrent. Files that are selected have `selected` 1. -/
structure RdTorrentFile where
  id : Int
  path : Option (List Char)
  bytes : Option Int
  selected : Int
  deriving DecidableEq, Repr

/-- The answer of `/torrents/info`: the files, and the links of the torrent. -/
structure RdTorrentInfo where
  files : List RdTorrentFile
  links : List (List Char)
  deriving DecidableEq, Repr

/-- The answer of `/unrestrict/link`. -/
structure RdUnrestricted where
  filename : Option (List Char)
  filesize : Option Nat
  download : Option (List Char)
  deriving DecidableEq, Repr

namespace RealDebrid

/-- The name of the provider, the first part of its keys. -/
def name : List Char := "realdebrid".toList

/-- The name has a video extension. -/
def isPlayable (filename : Option (List Char)) : Bool := hasVideoExtension filename

/-- The files that are selected, in the order of the torrent. -/
def selectedFiles (info : RdTorrentInfo) : List RdTorrentFile :=
  info.files.filter fun f => f.selected == 1

/-- `file_link_pairs`. Both functions have a copy of it. -/
def fileLinkPairs (info : RdTorrentInfo) : List (RdTorrentFile × List Char) :=
  let selected := selectedFiles info
  if !selected.isEmpty && selected.length == info.links.length then
    selected.zip info.links
  else
    -- The counts differ: all files are paired, whether they are selected or not.
    info.files.zip info.links

/-- The candidate that a paired file becomes, if any. -/
def candidate (torrentId : List Char) (file : RdTorrentFile) : Option AssetRef :=
  let size := asU64 (file.bytes.getD 0)
  let filename := extractFilename file.path
  if size = 0 then none
  else if !isPlayable filename then none
  else some {
    key := {
      provider := name
      itemId := torrentId
      fileIndex := some (asU32 file.id)
      sizeBytes := size }
    filename := filename.getD "unknown".toList }

/-- The candidates of one torrent. -/
def torrentCandidates (torrentId : List Char) (info : RdTorrentInfo) : List AssetRef :=
  (fileLinkPairs info).filterMap fun (file, _) => candidate torrentId file

/-- `list_candidates`: the candidates of all downloaded torrents, larger ones first. -/
def listCandidates (torrents : Except ProviderError (List RdTorrent))
    (info : List Char → Except ProviderError RdTorrentInfo) :
    Except ProviderError (List AssetRef) := do
  let downloaded := (← torrents).filter fun t => t.status == some "downloaded".toList
  -- The first request that fails ends the listing.
  let candidates ← downloaded.mapM fun t => do
    return torrentCandidates t.id (← info t.id)
  return sortBySize candidates.flatten

/-- The link that `resolve_direct_url` unrestricts for a key. -/
def linkFor (info : RdTorrentInfo) (key : AssetKey) : Except ProviderError (List Char) :=
  let fileIndex := key.fileIndex.getD 0
  match (fileLinkPairs info).find? fun (f, _) => asU32 f.id == fileIndex with
  | some (_, link) => .ok link
  | none => .error (.notFound ("File index ".toList ++ Text.decimal fileIndex ++
      " not found in torrent ".toList ++ key.itemId))

/-- `resolve_direct_url`: the link that the file is paired with, unrestricted. -/
def resolveDirectUrl (info : List Char → Except ProviderError RdTorrentInfo)
    (unrestrict : List Char → Except ProviderError RdUnrestricted) (nowMs : Nat)
    (asset : AssetRef) : Except ProviderError ResolvedAsset := do
  let link ← linkFor (← info asset.key.itemId) asset.key
  let unrestricted ← unrestrict link
  match unrestricted.download with
  | none => .error (.other "Unrestrict response missing download URL".toList)
  | some directUrl =>
    return {
      key := asset.key
      directUrl := directUrl
      filename := unrestricted.filename.getD asset.filename
      sizeBytes := unrestricted.filesize.getD asset.key.sizeBytes
      resolvedAtMs := nowMs }

end RealDebrid

end FrontierSim
