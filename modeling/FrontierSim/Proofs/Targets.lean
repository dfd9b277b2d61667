import FrontierSim.Proofs.Canonical
import FrontierSim.Proofs.Pairing

/-!
# `FrontierSim.Proofs.Targets`: what a target names

`resolve_target` turns a target into a URL. It takes the provider from the text, lists the assets
of that provider, looks for the text among their canonical strings, and asks the provider for
the URL of what it found. `Names` says what the result should be without any of this: a URL names
itself, and the canonical string of an asset names the URL that its own provider offers for it.

`resolveTarget_iff` says that the two agree, so a target never resolves to the URL of another
asset, and what is offered can be reached.
-/

set_option autoImplicit false

namespace FrontierSim

open Lib

/-! ### The meaning of a target -/

/-- What a provider offers: an asset, and the URL that it is fetched from. -/
inductive Offers (api : ProviderApi) : Provider → AssetRef → List Char → Prop
  /-- A file of a downloaded torrent, by the link that it is paired with. -/
  | torrentFile {torrents : List RdTorrent} {t : RdTorrent} {info : RdTorrentInfo}
      {file : RdTorrentFile} {link : List Char} {asset : AssetRef} {unrestricted : RdUnrestricted}
      {url : List Char} (htorrents : api.torrents = .ok torrents) (ht : t ∈ torrents)
      (hdone : t.status = some "downloaded".toList) (hinfo : api.torrentInfo t.id = .ok info)
      (hpair : (file, link) ∈ RealDebrid.fileLinkPairs info)
      (hasset : RealDebrid.candidate t.id file = some asset)
      (hunrestrict : api.unrestrict link = .ok unrestricted)
      (hurl : unrestricted.download = some url) : Offers api .realdebrid asset url
  /-- An item of the account, by the links in its details. -/
  | item {response : PmListAllResponse} {item : PmItem} {asset : AssetRef}
      {details : PmItemDetails} {url : List Char} (hlist : api.listAll = .ok response)
      (hitem : item ∈ response.files.getD []) (hasset : Premiumize.candidate item = some asset)
      (hdetails : api.itemDetails item.id = .ok details)
      (hurl : details.streamLink.or details.link = some url) : Offers api .premiumize asset url

/-- The requests that a listing makes are all answered. -/
def ProviderApi.Listable (api : ProviderApi) : Provider → Prop
  | .realdebrid => ∃ torrents, api.torrents = .ok torrents ∧
      ∀ t ∈ torrents, t.status = some "downloaded".toList →
        ∃ info, api.torrentInfo t.id = .ok info
  | .premiumize => ∃ response, api.listAll = .ok response ∧
      response.status = some "success".toList

/-- What a target names. -/
inductive Names (cfg : ProvidersConfig) (api : ProviderApi) : List Char → List Char → Prop
  | url {target : List Char} (hurl : isUrl target = true) : Names cfg api target target
  | asset {p : Provider} {asset : AssetRef} {url : List Char} (hcfg : cfg.configured p = true)
      (hlistable : api.Listable p) (hoffers : Offers api p asset url) :
      Names cfg api asset.key.canonical url

/-! ### Listing -/

/-- A listing that succeeds has the candidates of the torrents that are downloaded. -/
theorem RealDebrid.mem_listCandidates_iff {torrents : Except ProviderError (List RdTorrent)}
    {info : List Char → Except ProviderError RdTorrentInfo} {candidates : List AssetRef}
    (hlist : RealDebrid.listCandidates torrents info = .ok candidates) {a : AssetRef} :
    a ∈ candidates ↔ ∃ listed, torrents = .ok listed ∧ ∃ t ∈ listed,
      t.status = some "downloaded".toList ∧ ∃ response, info t.id = .ok response ∧
        a ∈ RealDebrid.torrentCandidates t.id response := by
  obtain ⟨listed, hlisted, hlist⟩ := bind_eq_ok.mp hlist
  obtain ⟨groups, hgroups, hlist⟩ := bind_eq_ok.mp hlist
  cases hlist
  rw [mem_sortBySize, List.mem_flatten]
  constructor
  · rintro ⟨group, hgroup, ha⟩
    obtain ⟨t, ht, hinfo⟩ := exists_of_mem_mapM hgroups hgroup
    obtain ⟨ht, hdone⟩ := List.mem_filter.mp ht
    obtain ⟨response, hresponse, hcandidates⟩ := bind_eq_ok.mp hinfo
    cases hcandidates
    exact ⟨listed, hlisted, t, ht, by simpa using hdone, response, hresponse, ha⟩
  · rintro ⟨listed', hlisted', t, ht, hdone, response, hresponse, ha⟩
    obtain rfl := Except.ok.inj (hlisted.symm.trans hlisted')
    have hfilter : t ∈ listed.filter fun t => t.status == some "downloaded".toList :=
      List.mem_filter.mpr ⟨ht, by simpa using hdone⟩
    obtain ⟨group, hgroup, hinfo⟩ := mem_of_mapM hgroups hfilter
    rw [hresponse] at hinfo
    cases hinfo
    exact ⟨_, hgroup, ha⟩

/-- A listing that succeeds has the candidates of the items. -/
theorem Premiumize.mem_listCandidates_iff {response : Except ProviderError PmListAllResponse}
    {candidates : List AssetRef} (hlist : Premiumize.listCandidates response = .ok candidates)
    {a : AssetRef} :
    a ∈ candidates ↔ ∃ answer, response = .ok answer ∧
      ∃ item ∈ answer.files.getD [], Premiumize.candidate item = some a := by
  obtain ⟨answer, hanswer, hlist⟩ := bind_eq_ok.mp hlist
  split at hlist
  · cases hlist
  · cases hlist
    rw [mem_sortBySize, List.mem_filterMap]
    constructor
    · intro ha
      exact ⟨answer, hanswer, ha⟩
    · rintro ⟨answer', hanswer', ha⟩
      obtain rfl := Except.ok.inj (hanswer.symm.trans hanswer')
      exact ha

/-- A listing succeeds exactly when its requests do. -/
theorem ProviderApi.listable_iff (api : ProviderApi) (p : Provider) :
    api.Listable p ↔ ∃ candidates, api.listCandidates p = .ok candidates := by
  cases p with
  | realdebrid =>
    constructor
    · rintro ⟨torrents, htorrents, hall⟩
      have hdownloaded : ∀ t ∈ torrents.filter fun t => t.status == some "downloaded".toList,
          ∃ candidates, (do return RealDebrid.torrentCandidates t.id (← api.torrentInfo t.id) :
            Except ProviderError (List AssetRef)) = .ok candidates := by
        intro t ht
        obtain ⟨ht, hdone⟩ := List.mem_filter.mp ht
        obtain ⟨info, hinfo⟩ := hall t ht (by simpa using hdone)
        exact ⟨_, bind_eq_ok.mpr ⟨info, hinfo, rfl⟩⟩
      obtain ⟨groups, hgroups⟩ := exists_mapM_eq_ok hdownloaded
      exact ⟨_, bind_eq_ok.mpr ⟨torrents, htorrents, bind_eq_ok.mpr ⟨groups, hgroups, rfl⟩⟩⟩
    · rintro ⟨candidates, hlist⟩
      obtain ⟨torrents, htorrents, hlist⟩ := bind_eq_ok.mp hlist
      obtain ⟨groups, hgroups, -⟩ := bind_eq_ok.mp hlist
      refine ⟨torrents, htorrents, fun t ht hdone => ?_⟩
      have hfilter : t ∈ torrents.filter fun t => t.status == some "downloaded".toList :=
        List.mem_filter.mpr ⟨ht, by simpa using hdone⟩
      obtain ⟨group, -, hinfo⟩ := mem_of_mapM hgroups hfilter
      obtain ⟨info, hinfo, -⟩ := bind_eq_ok.mp hinfo
      exact ⟨info, hinfo⟩
  | premiumize =>
    constructor
    · rintro ⟨response, hresponse, hsuccess⟩
      exact ⟨sortBySize ((response.files.getD []).filterMap Premiumize.candidate),
        bind_eq_ok.mpr ⟨response, hresponse, if_neg (not_not.mpr hsuccess)⟩⟩
    · rintro ⟨candidates, hlist⟩
      obtain ⟨response, hresponse, hlist⟩ := bind_eq_ok.mp hlist
      split at hlist
      · cases hlist
      · rename_i hsuccess
        exact ⟨response, hresponse, not_not.mp hsuccess⟩

/-! ### The lookup -/

/-- Only a configured provider is asked. -/
theorem configured_of_mem_buildProviders {cfg : ProvidersConfig} {filter : Option (List Char)}
    {p : Provider} (hp : p ∈ buildProviders cfg filter) : cfg.configured p = true := by
  unfold buildProviders at hp
  rcases List.mem_append.mp hp with hp | hp
  · split at hp
    · rename_i hcond
      rw [List.mem_singleton.mp hp]
      exact (Bool.and_eq_true_iff.mp hcond).2
    · cases hp
  · split at hp
    · rename_i hcond
      rw [List.mem_singleton.mp hp]
      exact (Bool.and_eq_true_iff.mp hcond).2
    · cases hp

section
variable {cfg : ProvidersConfig} {api : ProviderApi} {target url : List Char} {nowMs : Nat}
  {p : Provider} {a : AssetRef} {candidates : List AssetRef}

/-- What the lookup returns is a candidate with the target as its canonical string. -/
theorem candidate_of_lookupAsset (hlookup : lookupAsset cfg api target = .ok (p, a)) :
    cfg.configured p = true ∧ a.key.canonical = target ∧
      ∃ candidates, api.listCandidates p = .ok candidates ∧ a ∈ candidates := by
  unfold lookupAsset at hlookup
  split at hlookup
  · split at hlookup
    · cases hlookup
    · rename_i hproviders
      split at hlookup
      · cases hlookup
      · rename_i hlist
        split at hlookup
        · rename_i hfind
          cases hlookup
          refine ⟨configured_of_mem_buildProviders (hproviders ▸ List.mem_cons_self), ?_,
            _, hlist, List.mem_of_find?_eq_some hfind⟩
          simpa using List.find?_some hfind
        · cases hlookup
  · cases hlookup

/-- The lookup of a candidate's canonical string finds a candidate with the same key. -/
theorem lookupAsset_of_candidate (hcfg : cfg.configured p = true)
    (hlist : api.listCandidates p = .ok candidates) (ha : a ∈ candidates) :
    ∃ a', lookupAsset cfg api a.key.canonical = .ok (p, a') ∧ a'.key = a.key := by
  have hkeys := api.listCandidates_producedBy hlist
  obtain ⟨rest, hsplit⟩ := splitOnce_canonical (hkeys a ha)
  obtain ⟨part, parts, hparts⟩ := Text.splitn_of_splitOnce (n := 2) hsplit
  obtain ⟨a', hfind, hkey⟩ := find?_canonical hkeys ha
  refine ⟨a', ?_, hkey⟩
  simp only [lookupAsset, hparts, buildProviders_name hcfg, hlist, hfind]

/-! ### Resolving -/

/-- Real-Debrid resolves a key to the download URL of the link that the key is paired with. -/
theorem RealDebrid.resolveDirectUrl_iff
    {info : List Char → Except ProviderError RdTorrentInfo}
    {unrestrict : List Char → Except ProviderError RdUnrestricted} :
    (∃ r, RealDebrid.resolveDirectUrl info unrestrict nowMs a = .ok r ∧ r.directUrl = url) ↔
      ∃ response link unrestricted, info a.key.itemId = .ok response ∧
        RealDebrid.linkFor response a.key = .ok link ∧ unrestrict link = .ok unrestricted ∧
        unrestricted.download = some url := by
  constructor
  · rintro ⟨r, hr, rfl⟩
    obtain ⟨response, hresponse, hr⟩ := bind_eq_ok.mp hr
    obtain ⟨link, hlink, hr⟩ := bind_eq_ok.mp hr
    obtain ⟨unrestricted, hunrestrict, hr⟩ := bind_eq_ok.mp hr
    split at hr
    · cases hr
    · rename_i hdownload
      cases hr
      exact ⟨response, link, unrestricted, hresponse, hlink, hunrestrict, hdownload⟩
  · rintro ⟨response, link, unrestricted, hresponse, hlink, hunrestrict, hdownload⟩
    refine ⟨⟨a.key, url, unrestricted.filename.getD a.filename,
      unrestricted.filesize.getD a.key.sizeBytes, nowMs⟩, ?_, rfl⟩
    refine bind_eq_ok.mpr ⟨response, hresponse, bind_eq_ok.mpr ⟨link, hlink, ?_⟩⟩
    refine bind_eq_ok.mpr ⟨unrestricted, hunrestrict, ?_⟩
    rw [hdownload]
    rfl

/-- Premiumize resolves a key to the stream link of its item, or else to its link. -/
theorem Premiumize.resolveDirectUrl_iff
    {details : List Char → Except ProviderError PmItemDetails} :
    (∃ r, Premiumize.resolveDirectUrl details nowMs a = .ok r ∧ r.directUrl = url) ↔
      ∃ answer, details a.key.itemId = .ok answer ∧
        answer.streamLink.or answer.link = some url := by
  constructor
  · rintro ⟨r, hr, rfl⟩
    obtain ⟨answer, hanswer, hr⟩ := bind_eq_ok.mp hr
    split at hr
    · cases hr
    · rename_i hlink
      cases hr
      exact ⟨answer, hanswer, hlink⟩
  · rintro ⟨answer, hanswer, hlink⟩
    refine ⟨⟨a.key, url, answer.name.getD a.filename,
      (answer.size.map asU64).getD a.key.sizeBytes, nowMs⟩, ?_, rfl⟩
    refine bind_eq_ok.mpr ⟨answer, hanswer, ?_⟩
    rw [hlink]
    rfl

/-- The files of a torrent have ids of their own, in the `u32` range. -/
structure DistinctFiles (info : RdTorrentInfo) : Prop where
  distinct : (info.files.map RdTorrentFile.id).Nodup
  range : ∀ f ∈ info.files, 0 ≤ f.id ∧ f.id < 2 ^ 32

/-- The key of a candidate names its torrent. -/
theorem RealDebrid.itemId_of_candidate {torrentId : List Char} {file : RdTorrentFile}
    (ha : RealDebrid.candidate torrentId file = some a) : a.key.itemId = torrentId := by
  obtain ⟨-, rfl⟩ := RealDebrid.candidate_eq_some.mp ha
  rfl

/-- The key of a candidate names its item. -/
theorem Premiumize.itemId_of_candidate {item : PmItem}
    (ha : Premiumize.candidate item = some a) : a.key.itemId = item.id := by
  simp only [Premiumize.candidate, Option.ite_none_left_eq_some, Option.some.injEq] at ha
  obtain ⟨-, -, rfl⟩ := ha
  rfl

/-- A listed asset resolves to what is offered under its key. -/
theorem resolveDirectUrl_iff_offers (nowMs : Nat)
    (hfiles : ∀ id info, api.torrentInfo id = .ok info → DistinctFiles info)
    (hlist : api.listCandidates p = .ok candidates) (ha : a ∈ candidates) :
    (∃ r, api.resolveDirectUrl nowMs a p = .ok r ∧ r.directUrl = url) ↔
      ∃ asset, Offers api p asset url ∧ asset.key = a.key := by
  cases p with
  | realdebrid =>
    have hlink : ∀ {torrentId info file link b}, api.torrentInfo torrentId = .ok info →
        (file, link) ∈ RealDebrid.fileLinkPairs info →
        RealDebrid.candidate torrentId file = some b → RealDebrid.linkFor info b.key = .ok link :=
      fun hinfo hpair hb => RealDebrid.linkFor_of_mem (hfiles _ _ hinfo).distinct
        (hfiles _ _ hinfo).range hpair hb
    show (∃ r, RealDebrid.resolveDirectUrl api.torrentInfo api.unrestrict nowMs a = .ok r ∧ _) ↔ _
    rw [RealDebrid.resolveDirectUrl_iff]
    constructor
    · rintro ⟨info', link', unrestricted, hinfo', hlink', hunrestrict, hurl⟩
      obtain ⟨torrents, htorrents, t, ht, hdone, info, hinfo, ha⟩ :=
        (RealDebrid.mem_listCandidates_iff hlist).mp ha
      obtain ⟨⟨file, link⟩, hpair, hasset⟩ := List.mem_filterMap.mp ha
      rw [RealDebrid.itemId_of_candidate hasset, hinfo] at hinfo'
      obtain rfl := Except.ok.inj hinfo'
      obtain rfl := Except.ok.inj ((hlink hinfo hpair hasset).symm.trans hlink')
      exact ⟨a, .torrentFile htorrents ht hdone hinfo hpair hasset hunrestrict hurl, rfl⟩
    · rintro ⟨asset, hoffers, hkey⟩
      cases hoffers with
      | torrentFile htorrents ht hdone hinfo hpair hasset hunrestrict hurl =>
        have hfound := hlink hinfo hpair hasset
        rw [← RealDebrid.itemId_of_candidate hasset, hkey] at hinfo
        exact ⟨_, _, _, hinfo, hkey ▸ hfound, hunrestrict, hurl⟩
  | premiumize =>
    show (∃ r, Premiumize.resolveDirectUrl api.itemDetails nowMs a = .ok r ∧ _) ↔ _
    rw [Premiumize.resolveDirectUrl_iff]
    constructor
    · rintro ⟨details, hdetails, hurl⟩
      obtain ⟨response, hresponse, item, hitem, hasset⟩ :=
        (Premiumize.mem_listCandidates_iff hlist).mp ha
      rw [Premiumize.itemId_of_candidate hasset] at hdetails
      exact ⟨a, .item hresponse hitem hasset hdetails hurl, rfl⟩
    · rintro ⟨asset, hoffers, hkey⟩
      cases hoffers with
      | item hresponse hitem hasset hdetails hurl =>
        rw [← Premiumize.itemId_of_candidate hasset, hkey] at hdetails
        exact ⟨_, hdetails, hurl⟩

/-- What is offered is listed. -/
theorem mem_of_offers (hlist : api.listCandidates p = .ok candidates) (h : Offers api p a url) :
    a ∈ candidates := by
  cases h with
  | torrentFile htorrents ht hdone hinfo hpair hasset =>
    refine (RealDebrid.mem_listCandidates_iff hlist).mpr ⟨_, htorrents, _, ht, hdone, _, hinfo, ?_⟩
    exact List.mem_filterMap.mpr ⟨_, hpair, hasset⟩
  | item hresponse hitem hasset =>
    exact (Premiumize.mem_listCandidates_iff hlist).mpr ⟨_, hresponse, _, hitem, hasset⟩

/-- Where the files of each torrent have ids of their own, a target resolves to the URL that it
names, and to nothing else. -/
theorem resolveTarget_iff
    (hfiles : ∀ id info, api.torrentInfo id = .ok info → DistinctFiles info) (nowMs : Nat)
    (target url : List Char) :
    resolveTarget cfg api nowMs target = .ok url ↔ Names cfg api target url := by
  constructor
  · intro h
    unfold resolveTarget at h
    split at h
    · rename_i hurl
      cases h
      exact .url hurl
    · split at h
      · cases h
      · rename_i p a hlookup
        split at h
        · cases h
        · rename_i resolved hresolve
          cases h
          obtain ⟨hcfg, rfl, candidates, hlist, ha⟩ := candidate_of_lookupAsset hlookup
          obtain ⟨asset, hoffers, hkey⟩ :=
            (resolveDirectUrl_iff_offers nowMs hfiles hlist ha).mp ⟨resolved, hresolve, rfl⟩
          rw [← hkey]
          exact .asset hcfg ((api.listable_iff p).mpr ⟨candidates, hlist⟩) hoffers
  · intro h
    cases h with
    | url hurl => rw [resolveTarget, if_pos hurl]
    | @asset p asset _ hcfg hlistable hoffers =>
      obtain ⟨candidates, hlist⟩ := (api.listable_iff p).mp hlistable
      have ha := mem_of_offers hlist hoffers
      have hnot := isUrl_canonical (api.listCandidates_producedBy hlist asset ha)
      -- The lookup may find another candidate with the same key.
      obtain ⟨a', hlookup, hkey⟩ := lookupAsset_of_candidate hcfg hlist ha
      obtain ⟨-, -, candidates', hlist', ha'⟩ := candidate_of_lookupAsset hlookup
      obtain ⟨r, hr, hurl⟩ := (resolveDirectUrl_iff_offers nowMs hfiles hlist' ha').mpr
        ⟨asset, hoffers, hkey.symm⟩
      rw [resolveTarget, if_neg (by simp [hnot])]
      simp only [hlookup, hr, hurl]

end

/-- A torrent with three files, of which the last two are selected and have links. -/
def oneTorrent : ProviderApi where
  torrents := .ok [⟨"S".toList, some "queued".toList⟩, ⟨"T".toList, some "downloaded".toList⟩]
  torrentInfo _ := .ok {
    files :=
      [⟨1, some "/a.mkv".toList, some 10, 0⟩,
        ⟨2, some "/b.mkv".toList, some 20, 1⟩,
        ⟨3, some "/c.mkv".toList, some 30, 1⟩]
    links := ["B".toList, "C".toList] }
  unrestrict link := .ok ⟨none, none, some ("http://host/".toList ++ link)⟩
  listAll := .error (.network [])
  itemDetails _ := .error (.network [])

/-- The last file of the torrent has the second link. -/
theorem resolveTarget_iff_one_torrent :
    resolveTarget ⟨some "key".toList, none⟩ oneTorrent 0 "realdebrid:T:3:30".toList
      = .ok "http://host/C".toList := by
  have hoffers : Offers oneTorrent .realdebrid
      ⟨⟨RealDebrid.name, "T".toList, some 3, 30⟩, "c.mkv".toList⟩ "http://host/C".toList :=
    .torrentFile rfl (List.mem_cons_of_mem _ List.mem_cons_self) rfl rfl
      (show (⟨3, some "/c.mkv".toList, some 30, 1⟩, "C".toList) ∈ _ by decide) (by decide) rfl rfl
  refine (resolveTarget_iff ?_ 0 _ _).mpr (.asset (p := .realdebrid) rfl ?_ hoffers)
  · intro id info hinfo
    cases hinfo
    exact ⟨by decide, by decide⟩
  · exact ⟨_, rfl, fun t ht hdone => ⟨_, rfl⟩⟩

end FrontierSim
