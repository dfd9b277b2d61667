import FrontierSim.Provider.RealDebrid
import Mathlib.Data.List.Nodup

/-!
# `FrontierSim.Proofs.Pairing`: which link belongs to which file

Real-Debrid gives the links of the selected files, in their order. `fileLinkPairs` pairs them
so when the counts agree, and falls back to pairing all files by position when they do not.
The fallback is right where it happens to give the file the link of its rank among the
selected files (`torrentCandidates_matched_iff`).
-/

set_option autoImplicit false

namespace FrontierSim

open Lib

/-! ### Lists -/

/-- In a list of pairs with distinct keys, a search for a key finds its pair. -/
theorem find?_zip_of_nodup {α β : Type} {key : α → Nat} {xs : List α} {ys : List β}
    (hnodup : (xs.map key).Nodup) {x : α} {y : β} (hmem : (x, y) ∈ xs.zip ys) :
    (xs.zip ys).find? (fun pair => key pair.1 == key x) = some (x, y) := by
  induction xs generalizing ys with
  | nil => cases hmem
  | cons x' xs ih =>
    cases ys with
    | nil => cases hmem
    | cons y' ys =>
      rw [List.map_cons, List.nodup_cons] at hnodup
      rw [List.zip_cons_cons] at hmem ⊢
      rcases List.mem_cons.mp hmem with heq | hmem
      · cases heq
        simp
      · have hne : key x' ≠ key x := by
          intro heq
          exact hnodup.1 (heq ▸ List.mem_map_of_mem (List.of_mem_zip hmem).1)
        rw [List.find?_cons_of_neg (by simpa using hne)]
        exact ih hnodup.2 hmem

/-- An element that passes a filter stands behind those before it that pass. -/
theorem getElem?_filter_countP {α : Type} {p : α → Bool} {xs : List α} {i : Nat} {x : α}
    (hx : xs[i]? = some x) (hp : p x) :
    (xs.filter p)[(xs.take i).countP p]? = some x := by
  induction xs generalizing i with
  | nil => simp at hx
  | cons x' xs ih =>
    cases i with
    | zero =>
      obtain rfl : x' = x := by simpa using hx
      simp [hp]
    | succ i =>
      rw [List.getElem?_cons_succ] at hx
      by_cases hp' : p x'
      · simp [hp', ih hx]
      · simp [hp', ih hx]

namespace RealDebrid

/-! ### Pairs and candidates -/

/-- The file becomes a candidate when it is paired. -/
def Offered (file : RdTorrentFile) : Prop :=
  asU64 (file.bytes.getD 0) ≠ 0 ∧ isPlayable (extractFilename file.path)

/-- What the candidate of an offered file is. -/
theorem candidate_eq_some {torrentId : List Char} {file : RdTorrentFile} {a : AssetRef} :
    candidate torrentId file = some a ↔ Offered file ∧ a =
      ⟨⟨name, torrentId, some (asU32 file.id), asU64 (file.bytes.getD 0)⟩,
        (extractFilename file.path).getD "unknown".toList⟩ := by
  simp only [candidate, Option.ite_none_left_eq_some, Option.some.injEq, Offered,
    Bool.not_eq_true, Bool.not_eq_false', and_assoc]
  exact and_congr_right fun _ => and_congr_right fun _ => eq_comm

/-- The number of selected files before position `i`. -/
def selectedBefore (info : RdTorrentInfo) (i : Nat) : Nat :=
  (info.files.take i).countP fun f => f.selected == 1

/-- Every candidate is a selected file, and its key resolves to the link at the position of
that file among the selected files. -/
def Matched (torrentId : List Char) (info : RdTorrentInfo) : Prop :=
  ∀ a ∈ torrentCandidates torrentId info,
    ∃ (k : Nat) (file : RdTorrentFile) (link : List Char),
      (selectedFiles info)[k]? = some file ∧ candidate torrentId file = some a ∧
      info.links[k]? = some link ∧ linkFor info a.key = .ok link

/-- The counts agree, or every file that is offered by its position is selected and has
there the link of its rank. -/
def LinksAligned (info : RdTorrentInfo) : Prop :=
  (selectedFiles info).length = info.links.length ∨
    ∀ (i : Nat) (file : RdTorrentFile) (link : List Char),
      info.files[i]? = some file → info.links[i]? = some link → Offered file →
        file.selected = 1 ∧ info.links[selectedBefore info i]? = some link

/-- A selected file is a file of the torrent. -/
theorem mem_selectedFiles {info : RdTorrentInfo} {file : RdTorrentFile} :
    file ∈ selectedFiles info ↔ file ∈ info.files ∧ file.selected = 1 := by
  simp [selectedFiles]

/-- The position of a selected file among the selected files. -/
theorem selectedFiles_selectedBefore {info : RdTorrentInfo} {i : Nat} {file : RdTorrentFile}
    (hfile : info.files[i]? = some file) (hselected : file.selected = 1) :
    (selectedFiles info)[selectedBefore info i]? = some file :=
  getElem?_filter_countP hfile (by simpa using hselected)

/-- The branch of equal counts. -/
theorem fileLinkPairs_of_length_eq {info : RdTorrentInfo} (hne : selectedFiles info ≠ [])
    (hcounts : (selectedFiles info).length = info.links.length) :
    fileLinkPairs info = (selectedFiles info).zip info.links := by
  simp [fileLinkPairs, hne, hcounts]

/-- The fallback. -/
theorem fileLinkPairs_of_length_ne {info : RdTorrentInfo}
    (hcounts : (selectedFiles info).length ≠ info.links.length) :
    fileLinkPairs info = info.files.zip info.links := by
  simp [fileLinkPairs, hcounts]

/-- Either way the paired files are some of the files, in their order. -/
theorem fileLinkPairs_sublist (info : RdTorrentInfo) :
    ∃ files : List RdTorrentFile,
      files.Sublist info.files ∧ fileLinkPairs info = files.zip info.links := by
  by_cases hcond : (!(selectedFiles info).isEmpty &&
      (selectedFiles info).length == info.links.length) = true
  · exact ⟨selectedFiles info, List.filter_sublist, if_pos hcond⟩
  · exact ⟨info.files, List.Sublist.refl _, if_neg hcond⟩

section
variable {info : RdTorrentInfo} (hids : (info.files.map RdTorrentFile.id).Nodup)
  (hrange : ∀ f ∈ info.files, 0 ≤ f.id ∧ f.id < 2 ^ 32)
include hids hrange

/-- Ids in the `u32` range stay distinct through the cast. -/
theorem eq_of_asU32_eq {f g : RdTorrentFile} (hf : f ∈ info.files) (hg : g ∈ info.files)
    (h : asU32 f.id = asU32 g.id) : f = g := by
  have hid : f.id = g.id := by
    have := hrange f hf
    have := hrange g hg
    simp only [asU32] at h
    omega
  exact List.inj_on_of_nodup_map hids hf hg hid

/-- Ids in the range of `u32` stay distinct under the cast. -/
theorem nodup_asU32 : (info.files.map fun f => asU32 f.id).Nodup :=
  List.Nodup.map_on (fun _ hf _ hg h => eq_of_asU32_eq hids hrange hf hg h)
    (List.Nodup.of_map _ hids)

/-- A key resolves to the link that its file is paired with. -/
theorem linkFor_of_mem {torrentId : List Char} {file : RdTorrentFile} {link : List Char}
    {a : AssetRef} (hpair : (file, link) ∈ fileLinkPairs info)
    (ha : candidate torrentId file = some a) : linkFor info a.key = .ok link := by
  obtain ⟨files, hsub, hpairs⟩ := fileLinkPairs_sublist info
  rw [hpairs] at hpair
  have hfind := find?_zip_of_nodup ((nodup_asU32 hids hrange).sublist (hsub.map _)) hpair
  obtain ⟨-, rfl⟩ := candidate_eq_some.mp ha
  simp only [linkFor, Option.getD_some, hpairs, hfind]

/-- With equal counts, the pairs are right. -/
theorem matched_of_length_eq (torrentId : List Char) (hne : selectedFiles info ≠ [])
    (hcounts : (selectedFiles info).length = info.links.length) : Matched torrentId info := by
  intro a ha
  obtain ⟨⟨file, link⟩, hpair, ha⟩ := List.mem_filterMap.mp ha
  have hlink := linkFor_of_mem hids hrange hpair ha
  rw [fileLinkPairs_of_length_eq hne hcounts] at hpair
  obtain ⟨k, hk⟩ := List.mem_iff_getElem?.mp hpair
  obtain ⟨hfile, hlinks⟩ := List.getElem?_zip_eq_some.mp hk
  exact ⟨k, file, link, hfile, ha, hlinks, hlink⟩

/-- A pair of the fallback is right when its file is selected and its link is the one of the
rank of the file. -/
theorem matched_fallback_iff (torrentId : List Char)
    (hcounts : (selectedFiles info).length ≠ info.links.length) :
    Matched torrentId info ↔
      ∀ (i : Nat) (file : RdTorrentFile) (link : List Char),
        info.files[i]? = some file → info.links[i]? = some link → Offered file →
          file.selected = 1 ∧ info.links[selectedBefore info i]? = some link := by
  constructor
  · intro hmatched i file link hfile hlink hoffered
    obtain ⟨a, ha⟩ : ∃ a, candidate torrentId file = some a :=
      ⟨_, candidate_eq_some.mpr ⟨hoffered, rfl⟩⟩
    have hpair : (file, link) ∈ fileLinkPairs info := by
      rw [fileLinkPairs_of_length_ne hcounts]
      exact List.mem_of_getElem? (List.getElem?_zip_eq_some.mpr ⟨hfile, hlink⟩)
    obtain ⟨k, file', link', hfile', ha', hlink', hresolve⟩ :=
      hmatched a (List.mem_filterMap.mpr ⟨_, hpair, ha⟩)
    -- The candidate determines the file, and the file its rank.
    obtain ⟨hmem', hselected'⟩ := mem_selectedFiles.mp (List.mem_of_getElem? hfile')
    obtain rfl : file' = file := by
      obtain ⟨-, heq⟩ := candidate_eq_some.mp ha
      obtain ⟨-, heq'⟩ := candidate_eq_some.mp ha'
      have hkey := congrArg (fun b : AssetRef => b.key.fileIndex) (heq'.symm.trans heq)
      exact eq_of_asU32_eq hids hrange hmem' (List.mem_of_getElem? hfile)
        (Option.some.inj hkey)
    have hrank := selectedFiles_selectedBefore hfile hselected'
    have hnodup : (selectedFiles info).Nodup := (List.Nodup.of_map _ hids).filter _
    obtain rfl : k = selectedBefore info i :=
      (List.getElem?_inj (List.getElem?_eq_some_iff.mp hfile').1 hnodup).mp
        (hfile'.trans hrank.symm)
    have hresolve' := linkFor_of_mem hids hrange hpair ha
    rw [hresolve, Except.ok.injEq] at hresolve'
    exact ⟨hselected', hresolve' ▸ hlink'⟩
  · intro haligned a ha
    obtain ⟨⟨file, link⟩, hpair, ha⟩ := List.mem_filterMap.mp ha
    have hresolve := linkFor_of_mem hids hrange hpair ha
    rw [fileLinkPairs_of_length_ne hcounts] at hpair
    obtain ⟨i, hi⟩ := List.mem_iff_getElem?.mp hpair
    obtain ⟨hfile, hlink⟩ := List.getElem?_zip_eq_some.mp hi
    obtain ⟨hselected, hrank⟩ :=
      haligned i file link hfile hlink (candidate_eq_some.mp ha).1
    exact ⟨_, file, link, selectedFiles_selectedBefore hfile hselected, ha, hrank, hresolve⟩

end

/-- Exactly when Real-Debrid candidates resolve to their own links. -/
theorem torrentCandidates_matched_iff (torrentId : List Char) {info : RdTorrentInfo}
    (hids : (info.files.map RdTorrentFile.id).Nodup)
    (hrange : ∀ f ∈ info.files, 0 ≤ f.id ∧ f.id < 2 ^ 32)
    (hselected : ∃ f ∈ info.files, f.selected = 1) :
    Matched torrentId info ↔ LinksAligned info := by
  have hne : selectedFiles info ≠ [] := by
    obtain ⟨f, hf, hsel⟩ := hselected
    exact List.ne_nil_of_mem (mem_selectedFiles.mpr ⟨hf, hsel⟩)
  by_cases hcounts : (selectedFiles info).length = info.links.length
  · exact iff_of_true (matched_of_length_eq hids hrange torrentId hne hcounts) (Or.inl hcounts)
  · rw [matched_fallback_iff hids hrange torrentId hcounts, LinksAligned, or_iff_right hcounts]

/-- Three video files, the first of them not selected, and one link. -/
def packedTorrent : RdTorrentInfo where
  files :=
    [⟨1, some "/a.mkv".toList, some 10, 0⟩,
      ⟨2, some "/b.mkv".toList, some 20, 1⟩,
      ⟨3, some "/c.mkv".toList, some 30, 1⟩]
  links := ["B".toList]

/-- The equivalence for a torrent whose links are fewer than its selected files. -/
theorem torrentCandidates_matched_iff_packed :
    Matched "T".toList packedTorrent ↔ LinksAligned packedTorrent :=
  torrentCandidates_matched_iff "T".toList (by decide) (by decide) (by decide)

/-- The file that is not selected becomes the candidate, and takes the link. -/
theorem packedTorrent_not_matched :
    (packedTorrent.files.map RdTorrentFile.id).Nodup ∧
      (∀ f ∈ packedTorrent.files, 0 ≤ f.id ∧ f.id < 2 ^ 32) ∧
      (∃ f ∈ packedTorrent.files, f.selected = 1) ∧ ¬ Matched "T".toList packedTorrent := by
  refine ⟨by decide, by decide, by decide, ?_⟩
  intro hmatched
  obtain ⟨k, file, link, hfile, ha, -, -⟩ :=
    hmatched ⟨⟨name, "T".toList, some 1, 10⟩, "a.mkv".toList⟩ (by decide)
  obtain ⟨hmem, hselected⟩ := mem_selectedFiles.mp (List.mem_of_getElem? hfile)
  obtain ⟨-, heq⟩ := candidate_eq_some.mp ha
  have hindex : 1 = asU32 file.id := by
    simpa using congrArg (fun b : AssetRef => b.key.fileIndex) heq
  have hother : ∀ f ∈ packedTorrent.files, f.selected = 1 → 1 ≠ asU32 f.id := by decide
  exact hother file hmem hselected hindex

end RealDebrid

end FrontierSim
