import FrontierSim.Cli.Target
import FrontierSim.Lib.Traversal

/-!
# `FrontierSim.Proofs.Canonical`: asset keys identify assets

The canonical string of a key joins a free-form id and decimal numbers by colons. The id may
contain colons, but the numbers do not, so the string is read from the right. Each provider
always writes the same number of fields, and its name comes first. So a target that is the
canonical string of a candidate selects an asset with that key.
-/

set_option autoImplicit false

namespace FrontierSim

open Lib

/-! ### The keys of a provider -/

/-- A key that a provider can produce. -/
def AssetKey.ProducedBy (p : Provider) (key : AssetKey) : Prop :=
  key.provider = p.name ∧
    match p with
    | .realdebrid => key.fileIndex.isSome
    | .premiumize => key.fileIndex = none

/-- A candidate of Real-Debrid has its name and a file index. -/
theorem RealDebrid.candidate_producedBy {torrentId : List Char} {file : RdTorrentFile}
    {a : AssetRef} (ha : RealDebrid.candidate torrentId file = some a) :
    a.key.ProducedBy .realdebrid := by
  simp only [RealDebrid.candidate, Option.ite_none_left_eq_some, Option.some.injEq] at ha
  obtain ⟨-, -, rfl⟩ := ha
  exact ⟨rfl, rfl⟩

/-- A candidate of Premiumize has its name and no file index. -/
theorem Premiumize.candidate_producedBy {item : PmItem} {a : AssetRef}
    (ha : Premiumize.candidate item = some a) : a.key.ProducedBy .premiumize := by
  simp only [Premiumize.candidate, Option.ite_none_left_eq_some, Option.some.injEq] at ha
  obtain ⟨-, -, rfl⟩ := ha
  exact ⟨rfl, rfl⟩

/-- Sorting keeps the candidates. -/
@[simp] theorem mem_sortBySize {candidates : List AssetRef} {a : AssetRef} :
    a ∈ sortBySize candidates ↔ a ∈ candidates := by
  simp [sortBySize]

/-- Every candidate of Real-Debrid is a candidate of one torrent. -/
theorem RealDebrid.mem_listCandidates {torrents : Except ProviderError (List RdTorrent)}
    {info : List Char → Except ProviderError RdTorrentInfo} {candidates : List AssetRef}
    (hlist : RealDebrid.listCandidates torrents info = .ok candidates) {a : AssetRef}
    (ha : a ∈ candidates) :
    ∃ torrentId response, info torrentId = .ok response ∧
      a ∈ RealDebrid.torrentCandidates torrentId response := by
  obtain ⟨listed, -, hlist⟩ := bind_eq_ok.mp hlist
  obtain ⟨groups, hgroups, hlist⟩ := bind_eq_ok.mp hlist
  cases hlist
  obtain ⟨group, hgroup, hmem⟩ := List.mem_flatten.mp (mem_sortBySize.mp ha)
  obtain ⟨t, -, ht⟩ := exists_of_mem_mapM hgroups hgroup
  obtain ⟨response, hresponse, ht⟩ := bind_eq_ok.mp ht
  cases ht
  exact ⟨t.id, response, hresponse, hmem⟩

/-- Every candidate carries a key of the provider that lists it. -/
theorem ProviderApi.listCandidates_producedBy {api : ProviderApi} {p : Provider}
    {candidates : List AssetRef} (hlist : api.listCandidates p = .ok candidates) :
    ∀ a ∈ candidates, a.key.ProducedBy p := by
  intro a ha
  cases p with
  | realdebrid =>
    obtain ⟨torrentId, response, -, hmem⟩ := RealDebrid.mem_listCandidates hlist ha
    obtain ⟨pair, -, hpair⟩ := List.mem_filterMap.mp hmem
    exact RealDebrid.candidate_producedBy hpair
  | premiumize =>
    obtain ⟨response, -, hlist⟩ := bind_eq_ok.mp hlist
    split at hlist
    · cases hlist
    · cases hlist
      obtain ⟨item, -, hitem⟩ := List.mem_filterMap.mp (mem_sortBySize.mp ha)
      exact Premiumize.candidate_producedBy hitem

/-! ### The canonical string -/

section
variable {key key' : AssetKey}

/-- The text of a key of Real-Debrid. The item and the file index are one field before the size. -/
theorem canonical_realdebrid (hkey : key.ProducedBy .realdebrid) :
    ∃ idx, key.fileIndex = some idx ∧
      key.canonical = RealDebrid.name ++ ':' ::
        ((key.itemId ++ ':' :: Text.decimal idx) ++ ':' :: Text.decimal key.sizeBytes) := by
  obtain ⟨hname, hsome⟩ := hkey
  obtain ⟨idx, hidx⟩ := Option.isSome_iff_exists.mp hsome
  refine ⟨idx, hidx, ?_⟩
  simp [AssetKey.canonical, hidx, hname, Provider.name]

/-- The text of a key of Premiumize, with the item before the size. -/
theorem canonical_premiumize (hkey : key.ProducedBy .premiumize) :
    key.canonical = Premiumize.name ++ ':' ::
      (key.itemId ++ ':' :: Text.decimal key.sizeBytes) := by
  obtain ⟨hname, hnone⟩ := hkey
  simp only at hnone
  simp [AssetKey.canonical, hnone, hname, Provider.name]

/-- A number at the end of a text can be read back, since no digit is a colon. -/
theorem decimal_append_inj {s t : List Char} {m n : Nat}
    (h : s ++ ':' :: Text.decimal m = t ++ ':' :: Text.decimal n) : s = t ∧ m = n := by
  obtain ⟨hst, hmn⟩ := Text.append_sep_inj (Text.not_mem_decimal (by decide) m)
    (Text.not_mem_decimal (by decide) n) h
  exact ⟨hst, Text.decimal_injective hmn⟩

/-- Keys of one provider: the numbers come off the right end one by one. -/
theorem canonical_injective_of_producedBy {p : Provider} (hkey : key.ProducedBy p)
    (hkey' : key'.ProducedBy p) (h : key.canonical = key'.canonical) : key = key' := by
  have hname : key.provider = key'.provider := hkey.1.trans hkey'.1.symm
  cases p with
  | realdebrid =>
    obtain ⟨idx, hidx, hcanonical⟩ := canonical_realdebrid hkey
    obtain ⟨idx', hidx', hcanonical'⟩ := canonical_realdebrid hkey'
    rw [hcanonical, hcanonical', List.append_cancel_left_eq, List.cons.injEq] at h
    obtain ⟨hrest, hsize⟩ := decimal_append_inj h.2
    obtain ⟨hitem, heq⟩ := decimal_append_inj hrest
    cases key
    cases key'
    simp_all
  | premiumize =>
    rw [canonical_premiumize hkey, canonical_premiumize hkey', List.append_cancel_left_eq,
      List.cons.injEq] at h
    obtain ⟨hitem, hsize⟩ := decimal_append_inj h.2
    have hidx : key.fileIndex = key'.fileIndex := hkey.2.trans hkey'.2.symm
    cases key
    cases key'
    simp_all

/-- The provider is the text before the first colon. -/
theorem splitOnce_canonical {p : Provider} (hkey : key.ProducedBy p) :
    ∃ rest, Text.splitOnce ':' key.canonical = some (p.name, rest) := by
  have hcolon : ':' ∉ p.name := by cases p <;> decide
  cases p with
  | realdebrid =>
    obtain ⟨idx, -, hcanonical⟩ := canonical_realdebrid hkey
    exact ⟨_, hcanonical ▸ Text.splitOnce_append hcolon _⟩
  | premiumize =>
    exact ⟨_, canonical_premiumize hkey ▸ Text.splitOnce_append hcolon _⟩

/-- The two providers have different names. -/
theorem Provider.name_injective {p p' : Provider} (h : p.name = p'.name) : p = p' := by
  cases p <;> cases p' <;> first | rfl | exact absurd h (by decide)

/-- Equal canonical strings belong to equal keys. -/
theorem canonical_injective {p p' : Provider} (hkey : key.ProducedBy p)
    (hkey' : key'.ProducedBy p') (h : key.canonical = key'.canonical) : key = key' := by
  obtain ⟨rest, hsplit⟩ := splitOnce_canonical hkey
  obtain ⟨rest', hsplit'⟩ := splitOnce_canonical hkey'
  rw [h, hsplit', Option.some.injEq, Prod.mk.injEq] at hsplit
  obtain rfl := Provider.name_injective hsplit.1
  exact canonical_injective_of_producedBy hkey hkey' h

end

/-! ### The lookup -/

/-- The provider has an API key. -/
def ProvidersConfig.configured (cfg : ProvidersConfig) : Provider → Bool
  | .realdebrid => hasKey cfg.realdebrid
  | .premiumize => hasKey cfg.premiumize

/-- The name of a configured provider selects this one alone. -/
theorem buildProviders_name {cfg : ProvidersConfig} {p : Provider} (hcfg : cfg.configured p) :
    buildProviders cfg (some p.name) = [p] := by
  cases p with
  | realdebrid =>
    have hother : (some Provider.realdebrid.name == some Provider.premiumize.name) = false := by
      decide
    have hkey : hasKey cfg.realdebrid = true := hcfg
    simp [buildProviders, hother, hkey]
  | premiumize =>
    have hother : (some Provider.premiumize.name == some Provider.realdebrid.name) = false := by
      decide
    have hkey : hasKey cfg.premiumize = true := hcfg
    simp [buildProviders, hother, hkey]

/-- The canonical string of a key is never taken for a URL. -/
theorem isUrl_canonical {p : Provider} {key : AssetKey} (hkey : key.ProducedBy p) :
    isUrl key.canonical = false := by
  cases p with
  | realdebrid =>
    obtain ⟨idx, -, hcanonical⟩ := canonical_realdebrid hkey
    rw [hcanonical]
    rfl
  | premiumize =>
    rw [canonical_premiumize hkey]
    rfl

/-- A search by canonical string finds a candidate with that key. -/
theorem find?_canonical {p : Provider} {candidates : List AssetRef}
    (hkeys : ∀ a ∈ candidates, a.key.ProducedBy p) {a : AssetRef} (ha : a ∈ candidates) :
    ∃ a', candidates.find? (fun b => b.key.canonical == a.key.canonical) = some a' ∧
      a'.key = a.key := by
  cases hfind : candidates.find? fun b => b.key.canonical == a.key.canonical with
  | none =>
    have := List.find?_eq_none.mp hfind a ha
    simp at this
  | some a' =>
    have hcanonical : a'.key.canonical = a.key.canonical := by
      simpa using List.find?_some hfind
    exact ⟨a', rfl, canonical_injective (hkeys a' (List.mem_of_find?_eq_some hfind)) (hkeys a ha)
      hcanonical⟩

/-- Keys are told apart by their canonical strings, so the canonical string of a candidate is
a target that selects an asset with its key. -/
theorem canonical_identifies :
    (∀ (p p' : Provider) (key key' : AssetKey), key.ProducedBy p → key'.ProducedBy p' →
      key.canonical = key'.canonical → key = key') ∧
    ∀ (cfg : ProvidersConfig) (api : ProviderApi) (p : Provider) (candidates : List AssetRef),
      cfg.configured p → api.listCandidates p = .ok candidates →
      ∀ a ∈ candidates, isUrl a.key.canonical = false ∧
        ∃ a', lookupAsset cfg api a.key.canonical = .ok (p, a') ∧ a'.key = a.key := by
  refine ⟨fun p p' key key' => canonical_injective, ?_⟩
  intro cfg api p candidates hcfg hlist a ha
  have hkeys := api.listCandidates_producedBy hlist
  refine ⟨isUrl_canonical (hkeys a ha), ?_⟩
  obtain ⟨rest, hsplit⟩ := splitOnce_canonical (hkeys a ha)
  obtain ⟨part, parts, hparts⟩ := Text.splitn_of_splitOnce (n := 2) hsplit
  obtain ⟨a', hfind, hkey⟩ := find?_canonical hkeys ha
  refine ⟨a', ?_, hkey⟩
  simp only [lookupAsset, hparts, buildProviders_name hcfg, hlist, hfind]

/-- An id with a colon and a digit: the target `premiumize:a:1:5`. -/
theorem canonical_identifies_colon :
    let item : PmItem := ⟨"a:1".toList, some "v.mkv".toList, some 5, none, none⟩
    let api : ProviderApi :=
      { torrents := .ok []
        torrentInfo := fun _ => .error (.network [])
        unrestrict := fun _ => .error (.network [])
        listAll := .ok ⟨some "success".toList, some [item]⟩
        itemDetails := fun _ => .error (.network []) }
    ∃ a, lookupAsset ⟨none, some "key".toList⟩ api "premiumize:a:1:5".toList =
        .ok (.premiumize, a) ∧
      a.key = ⟨Premiumize.name, "a:1".toList, none, 5⟩ := by
  intro item api
  have hcandidate : Premiumize.candidate item =
      some ⟨⟨Premiumize.name, "a:1".toList, none, 5⟩, "v.mkv".toList⟩ := by decide
  have hlist : api.listCandidates .premiumize =
      .ok [⟨⟨Premiumize.name, "a:1".toList, none, 5⟩, "v.mkv".toList⟩] := by
    show Except.ok (sortBySize ([item].filterMap Premiumize.candidate)) = _
    simp [sortBySize, hcandidate]
  exact (canonical_identifies.2 ⟨none, some "key".toList⟩ api .premiumize _ rfl hlist _
    List.mem_cons_self).2

end FrontierSim
