import FrontierSim.Transport.Probe

/-!
# `FrontierSim.Proofs.Probe`: which response a probe describes

The handler keeps the headers of all responses of a redirect chain in one list. So a header of
an earlier response counts like one of the last. `probeUrl_describesLast_iff` says when that
makes no difference.
-/

set_option autoImplicit false

namespace FrontierSim

open Lib

/-- The handler appends the headers of the lines it sees. -/
theorem headers_foldl (h : ProbeHandler) (lines : List (Option (List Char))) :
    (lines.foldl ProbeHandler.header h).headers =
      h.headers ++ lines.filterMap ProbeHandler.headerField := by
  induction lines generalizing h with
  | nil => simp
  | cons line lines ih =>
    rw [List.foldl_cons, ih, ProbeHandler.header]
    cases hfield : ProbeHandler.headerField line with
    | none => simp [hfield]
    | some field => simp [hfield]

/-- The probe collects the header fields of all lines, in order. -/
theorem headers_probeUrl (curlLength : Option Int) (lines : List (Option (List Char))) :
    (probeUrl curlLength lines).responseHeaders = lines.filterMap ProbeHandler.headerField := by
  show (lines.foldl ProbeHandler.header .new).headers = _
  rw [headers_foldl]
  rfl

/-- The headers of the responses before the last one. -/
def earlierHeaders (earlier : List Response) : List (List Char × List Char) :=
  earlier.flatMap Response.headers

/-- For a redirect chain, the headers of the earlier responses come before those of the last one. -/
theorem headers_chainLines (earlier : List Response) (last : Response) :
    (chainLines earlier last).filterMap ProbeHandler.headerField =
      earlierHeaders earlier ++ last.headers := by
  simp [chainLines, earlierHeaders, Response.headers, List.filterMap_flatMap]
  rfl

/-! ### The two decisions over a chain -/

/-- A header in either part is enough. -/
theorem rangeSupport_append (xs ys : List (List Char × List Char)) :
    rangeSupport (xs ++ ys) = (rangeSupport xs || rangeSupport ys) :=
  List.any_append

/-- The first `Content-Length` header of the list. -/
def firstLength (headers : List (List Char × List Char)) : Option (List Char × List Char) :=
  headers.find? fun (k, _) => k == "content-length".toList

/-- An earlier length hides the later ones, even when it does not parse. -/
theorem headerLength_append (xs ys : List (List Char × List Char)) :
    headerLength (xs ++ ys) =
      match firstLength xs with
      | some (_, v) => Text.parseU64 v
      | none => headerLength ys := by
  cases hfirst : firstLength xs with
  | none =>
    have hfind : (xs ++ ys).find? (fun (k, _) => k == "content-length".toList) =
        ys.find? fun (k, _) => k == "content-length".toList := by
      rw [List.find?_append, show List.find? _ xs = none from hfirst, Option.none_or]
    simp only [headerLength, hfind]
  | some field =>
    have hfind : (xs ++ ys).find? (fun (k, _) => k == "content-length".toList) = some field := by
      rw [List.find?_append, show List.find? _ xs = some field from hfirst, Option.some_or]
    simp only [headerLength, hfind, Option.bind_some]

/-- The probe reports of the chain what it would report of its last response alone. -/
def DescribesLast (earlier : List Response) (last : Response) : Prop :=
  ∀ curlLength : Option Int,
    (probeUrl curlLength (chainLines earlier last)).rangeSupport =
        (probeUrl curlLength last.lines).rangeSupport ∧
      (probeUrl curlLength (chainLines earlier last)).contentLength =
        (probeUrl curlLength last.lines).contentLength

/-- The earlier responses say nothing that the last one does not say. -/
structure NoLeak (earlier : List Response) (last : Response) : Prop where
  /-- They name byte ranges only where the last response does. -/
  ranges : rangeSupport (earlierHeaders earlier) = true → rangeSupport last.headers = true
  /-- Their first length, if there is one, parses to the length of the last response. -/
  length : ∀ k v, firstLength (earlierHeaders earlier) = some (k, v) →
    Text.parseU64 v = headerLength last.headers

/-- The probe looks for range support among the fields of all lines. -/
theorem rangeSupport_probeUrl (curlLength : Option Int) (lines : List (Option (List Char))) :
    (probeUrl curlLength lines).rangeSupport =
      rangeSupport (lines.filterMap ProbeHandler.headerField) := by
  rw [← headers_probeUrl curlLength lines]
  rfl

/-- The probe looks for the length among the fields of all lines, unless curl knows it. -/
theorem contentLength_probeUrl (curlLength : Option Int) (lines : List (Option (List Char))) :
    (probeUrl curlLength lines).contentLength =
      contentLength curlLength (lines.filterMap ProbeHandler.headerField) := by
  rw [← headers_probeUrl curlLength lines]
  rfl

/-- The fallback is the only way in which the headers matter for the length. -/
theorem contentLength_congr {xs ys : List (List Char × List Char)} :
    (∀ curlLength, contentLength curlLength xs = contentLength curlLength ys) ↔
      headerLength xs = headerLength ys := by
  constructor
  · intro h
    exact h (some 0)
  · intro h curlLength
    simp only [contentLength, h]

/-- A probe describes the last response of a chain exactly when no earlier header leaks. -/
theorem probeUrl_describesLast_iff (earlier : List Response) (last : Response) :
    DescribesLast earlier last ↔ NoLeak earlier last := by
  have hlast : last.lines.filterMap ProbeHandler.headerField = last.headers := rfl
  have hlength : DescribesLast earlier last ↔
      rangeSupport (earlierHeaders earlier ++ last.headers) = rangeSupport last.headers ∧
        headerLength (earlierHeaders earlier ++ last.headers) = headerLength last.headers := by
    simp only [DescribesLast, rangeSupport_probeUrl, contentLength_probeUrl,
      headers_chainLines, hlast, forall_and, forall_const, contentLength_congr]
  rw [hlength, rangeSupport_append, headerLength_append]
  constructor
  · rintro ⟨hranges, hlengths⟩
    constructor
    · intro hearlier
      rw [← hranges, hearlier, Bool.true_or]
    · intro k v hfirst
      rw [hfirst] at hlengths
      exact hlengths
  · intro hleak
    constructor
    · cases hearlier : rangeSupport (earlierHeaders earlier) with
      | false => exact Bool.false_or _
      | true => rw [hleak.ranges hearlier, Bool.true_or]
    · cases hfirst : firstLength (earlierHeaders earlier) with
      | none => rfl
      | some field => exact hleak.length field.1 field.2 hfirst

/-- A redirect that names byte ranges and the length of its own body, and a response without
either. -/
theorem redirect_headers_leak :
    let redirect : Response :=
      { status := some "HTTP/1.1 302 Found\r\n".toList
        fields := [some "Location: /v.mkv\r\n".toList,
          some "Accept-Ranges: bytes\r\n".toList, some "Content-Length: 154\r\n".toList,
          some "\r\n".toList]
        status_opens := by decide
        fields_inside := by decide }
    let last : Response :=
      { status := some "HTTP/1.1 200 OK\r\n".toList
        fields := [some "Transfer-Encoding: chunked\r\n".toList, some "\r\n".toList]
        status_opens := by decide
        fields_inside := by decide }
    (probeUrl (some (-1)) (chainLines [redirect] last)).rangeSupport = true ∧
      (probeUrl (some (-1)) last.lines).rangeSupport = false ∧
      (probeUrl (some (-1)) (chainLines [redirect] last)).contentLength = some 154 ∧
      (probeUrl (some (-1)) last.lines).contentLength = none ∧
      ¬ DescribesLast [redirect] last := by
  intro redirect last
  have hchain : (probeUrl (some (-1)) (chainLines [redirect] last)).rangeSupport = true := by
    decide
  have hlast : (probeUrl (some (-1)) last.lines).rangeSupport = false := by decide
  refine ⟨hchain, hlast, by decide, by decide, ?_⟩
  intro hdescribes
  have := (hdescribes (some (-1))).1
  rw [hchain, hlast] at this
  cases this

end FrontierSim
