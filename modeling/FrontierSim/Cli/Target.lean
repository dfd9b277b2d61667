import FrontierSim.Provider.Premiumize
import FrontierSim.Provider.RealDebrid

/-!
# `FrontierSim.Cli.Target`: the target of a command

`resolve_target` and `build_providers` (`cli/src/main.rs`). A target is a URL or the
canonical string of an asset key. The code prints a message and exits where the model
returns a `TargetError`.
-/

set_option autoImplicit false

namespace FrontierSim

open Lib

/-- The two providers that the command knows. -/
inductive Provider
  | realdebrid
  | premiumize
  deriving DecidableEq, Repr

/-- `ProviderAdapter::name`, the first part of a canonical key. -/
def Provider.name : Provider → List Char
  | .realdebrid => RealDebrid.name
  | .premiumize => Premiumize.name

/-- The API keys of the configured providers. -/
structure ProvidersConfig where
  realdebrid : Option (List Char)
  premiumize : Option (List Char)
  deriving DecidableEq, Repr

/-- An API key that is set and not empty. -/
def hasKey (apiKey : Option (List Char)) : Bool :=
  match apiKey with
  | some key => !key.isEmpty
  | none => false

/-- `build_providers`: the configured providers, or only the one that the filter names. -/
def buildProviders (cfg : ProvidersConfig) (filter : Option (List Char)) : List Provider :=
  let wants (p : Provider) := filter.isNone || filter == some p.name
  (if wants .realdebrid && hasKey cfg.realdebrid then [Provider.realdebrid] else []) ++
    (if wants .premiumize && hasKey cfg.premiumize then [Provider.premiumize] else [])

/-- What the providers answer. -/
structure ProviderApi where
  torrents : Except ProviderError (List RdTorrent)
  torrentInfo : List Char → Except ProviderError RdTorrentInfo
  unrestrict : List Char → Except ProviderError RdUnrestricted
  listAll : Except ProviderError PmListAllResponse
  itemDetails : List Char → Except ProviderError PmItemDetails

/-- `list_candidates` of a provider, on the answers of its service. -/
def ProviderApi.listCandidates (api : ProviderApi) :
    Provider → Except ProviderError (List AssetRef)
  | .realdebrid => RealDebrid.listCandidates api.torrents api.torrentInfo
  | .premiumize => Premiumize.listCandidates api.listAll

/-- `resolve_direct_url` of a provider, on the answers of its service. -/
def ProviderApi.resolveDirectUrl (api : ProviderApi) (nowMs : Nat) (asset : AssetRef) :
    Provider → Except ProviderError ResolvedAsset
  | .realdebrid => RealDebrid.resolveDirectUrl api.torrentInfo api.unrestrict nowMs asset
  | .premiumize => Premiumize.resolveDirectUrl api.itemDetails nowMs asset

/-- The messages on which the command exits. -/
inductive TargetError
  | invalid
  | notConfigured (provider : List Char)
  | listing (error : ProviderError)
  | notFound (target : List Char) (available : List (List Char))
  | resolving (error : ProviderError)
  deriving DecidableEq, Repr

/-- A target with one of the two schemes is taken as a URL and is not looked up. -/
def isUrl (target : List Char) : Bool :=
  Text.startsWith target "http://".toList || Text.startsWith target "https://".toList

/-- The provider that a key names, and the candidate with that key. -/
def lookupAsset (cfg : ProvidersConfig) (api : ProviderApi) (target : List Char) :
    Except TargetError (Provider × AssetRef) :=
  match Text.splitn ':' 4 target with
  | providerName :: _ :: _ =>
    match buildProviders cfg (some providerName) with
    | [] => .error (.notConfigured providerName)
    | provider :: _ =>
      match api.listCandidates provider with
      | .error e => .error (.listing e)
      | .ok candidates =>
        match candidates.find? fun a => a.key.canonical == target with
        | some asset => .ok (provider, asset)
        | none => .error (.notFound target (candidates.map fun a => a.key.canonical))
  | _ => .error .invalid

/-- `resolve_target`: a URL as it is, and otherwise the direct URL of the candidate with that
canonical key, asked from its provider. -/
def resolveTarget (cfg : ProvidersConfig) (api : ProviderApi) (nowMs : Nat)
    (target : List Char) : Except TargetError (List Char) :=
  if isUrl target then .ok target
  else
    match lookupAsset cfg api target with
    | .error e => .error e
    | .ok (provider, asset) =>
      match api.resolveDirectUrl nowMs asset provider with
      | .error e => .error (.resolving e)
      | .ok resolved => .ok resolved.directUrl

end FrontierSim
