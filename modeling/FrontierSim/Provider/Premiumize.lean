import FrontierSim.Provider.Asset

/-!
# `FrontierSim.Provider.Premiumize`: the Premiumize adapter

`list_candidates` and `resolve_direct_url` of `PremiumizeProvider`
(`provider/src/premiumize.rs`). The answers to the HTTP requests are parameters.
-/

set_option autoImplicit false

namespace FrontierSim

open Lib

/-- An item of the account, as `/item/listall` lists it. -/
structure PmItem where
  id : List Char
  name : Option (List Char)
  size : Option Int
  mimeType : Option (List Char)
  path : Option (List Char)
  deriving DecidableEq, Repr

/-- The answer of `/item/listall`. -/
structure PmListAllResponse where
  status : Option (List Char)
  files : Option (List PmItem)
  deriving DecidableEq, Repr

/-- The answer of `/item/details`. -/
structure PmItemDetails where
  name : Option (List Char)
  size : Option Int
  link : Option (List Char)
  streamLink : Option (List Char)
  deriving DecidableEq, Repr

namespace Premiumize

/-- The name of the provider, the first part of its keys. -/
def name : List Char := "premiumize".toList

/-- The name that the item gives, or else the last component of its path. A name of white space
counts as none. -/
def bestFilename (name path : Option (List Char)) : Option (List Char) :=
  match name with
  | some n =>
    let trimmed := Text.trim n
    if trimmed.isEmpty then extractFilename path else some trimmed
  | none => extractFilename path

/-- The item has a video type, or else a name with a video extension. -/
def isPlayable (filename mimeType : Option (List Char)) : Bool :=
  (match mimeType with
    | some mime => Text.startsWith (Text.lowercase (Text.trim mime)) "video/".toList
    | none => false) ||
  hasVideoExtension filename

/-- The candidate that an item becomes, if any. -/
def candidate (item : PmItem) : Option AssetRef :=
  let size := asU64 (item.size.getD 0)
  let filename := bestFilename item.name item.path
  if size = 0 then none
  else if !isPlayable filename item.mimeType then none
  else some {
    key := {
      provider := name
      itemId := item.id
      fileIndex := none
      sizeBytes := size }
    filename := filename.getD "unknown".toList }

/-- `Option<String>` as `Debug` shows it. -/
def debugStatus : Option (List Char) → List Char
  | none => "None".toList
  | some status => "Some(\"".toList ++ status.flatMap Text.escapeDebug ++ "\")".toList

/-- `list_candidates`: the playable items of a listing that reports success, larger ones first. -/
def listCandidates (response : Except ProviderError PmListAllResponse) :
    Except ProviderError (List AssetRef) := do
  let response ← response
  if response.status ≠ some "success".toList then
    .error (.other ("Premiumize API reported status: ".toList ++ debugStatus response.status))
  else
    return sortBySize ((response.files.getD []).filterMap candidate)

/-- `resolve_direct_url`: the stream link of the item, or else its link. -/
def resolveDirectUrl (details : List Char → Except ProviderError PmItemDetails) (nowMs : Nat)
    (asset : AssetRef) : Except ProviderError ResolvedAsset := do
  let details ← details asset.key.itemId
  -- The stream link is preferred.
  match details.streamLink.or details.link with
  | none => .error (.notFound ("Premiumize item ".toList ++ asset.key.itemId ++
      " has no downloadable URL".toList))
  | some directUrl =>
    return {
      key := asset.key
      directUrl := directUrl
      filename := details.name.getD asset.filename
      sizeBytes := (details.size.map asU64).getD asset.key.sizeBytes
      resolvedAtMs := nowMs }

end Premiumize

end FrontierSim
