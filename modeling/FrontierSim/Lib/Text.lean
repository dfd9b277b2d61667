import Mathlib.Algebra.Ring.Nat
import Mathlib.Data.List.Infix

/-!
# String operations of the Rust standard library

The operations that the modelled code uses, on lists of characters: trimming, splitting,
searching, parsing and displaying unsigned integers, the escapes of `Debug`, and
`str::to_lowercase` as far as patterns of ASCII characters can see it.
-/

set_option autoImplicit false

namespace Lib.Text

/-- `char::is_whitespace`: the Unicode property `White_Space`. -/
def isWhitespace (c : Char) : Bool :=
  let n := c.toNat
  (9 ≤ n && n ≤ 13) || n = 0x20 || n = 0x85 || n = 0xA0 || n = 0x1680 ||
    (0x2000 ≤ n && n ≤ 0x200A) || n = 0x2028 || n = 0x2029 || n = 0x202F ||
    n = 0x205F || n = 0x3000

/-- `str::trim`. -/
def trim (s : List Char) : List Char :=
  ((s.dropWhile isWhitespace).reverse.dropWhile isWhitespace).reverse

/-- The words of `cs`, after the letters `word` of a word that has begun (last letter
first). -/
def splitWhitespaceFrom (word : List Char) : List Char → List (List Char)
  | [] => if word.isEmpty then [] else [word.reverse]
  | c :: cs =>
    if isWhitespace c then
      if word.isEmpty then splitWhitespaceFrom [] cs
      else word.reverse :: splitWhitespaceFrom [] cs
    else splitWhitespaceFrom (c :: word) cs

/-- `str::split_whitespace`. -/
def splitWhitespace (s : List Char) : List (List Char) :=
  splitWhitespaceFrom [] s

/-- `str::contains` with a string pattern. -/
def contains (s pattern : List Char) : Bool :=
  decide (pattern <:+: s)

/-- The value of a string of decimal digits that continues the value `acc`. -/
def parseDigits (acc : Nat) : List Char → Option Nat
  | [] => some acc
  | c :: cs =>
    if '0' ≤ c ∧ c ≤ '9' then parseDigits (10 * acc + (c.toNat - '0'.toNat)) cs else none

/-- `str::parse::<u32>`: an optional `+`, then at least one digit, with a value below
`2 ^ 32`. -/
def parseU32 (s : List Char) : Option Nat :=
  let digits := match s with
    | '+' :: rest => rest
    | _ => s
  if digits.isEmpty then none
  else (parseDigits 0 digits).filter (· < 2 ^ 32)

/-- `str::to_lowercase` on ASCII letters. Other characters stay. -/
def toLowercase (s : List Char) : List Char :=
  s.map Char.toLower

/-- `str::parse::<u64>`. -/
def parseU64 (s : List Char) : Option Nat :=
  let digits := match s with
    | '+' :: rest => rest
    | _ => s
  if digits.isEmpty then none
  else (parseDigits 0 digits).filter (· < 2 ^ 64)

/-- `Display` of an unsigned integer. -/
def decimal (n : Nat) : List Char := Nat.toDigits 10 n

/-- `char::to_lowercase`, up to letters whose lower case has no ASCII letter. Those stay. -/
def lowercaseChar (c : Char) : List Char :=
  -- The dotted capital I and the Kelvin sign have an ASCII letter in their lower case.
  if c = Char.ofNat 0x130 then ['i', Char.ofNat 0x307]
  else if c = Char.ofNat 0x212A then ['k']
  else [c.toLower]

/-- `str::to_lowercase`, as far as a pattern of ASCII characters can see it. -/
def lowercase (s : List Char) : List Char :=
  s.flatMap lowercaseChar

/-- `str::starts_with`. -/
def startsWith (s pattern : List Char) : Bool :=
  pattern.isPrefixOf s

/-- `str::ends_with`. -/
def endsWith (s pattern : List Char) : Bool :=
  pattern.isSuffixOf s

/-- `str::split_once`: the text before and after the first `sep`. -/
def splitOnce (sep : Char) : List Char → Option (List Char × List Char)
  | [] => none
  | c :: cs =>
    if c = sep then some ([], cs)
    else (splitOnce sep cs).map fun (before, after) => (c :: before, after)

/-- `str::splitn`: at most `n` parts, the last one with the rest of the text. -/
def splitn (sep : Char) : (n : Nat) → List Char → List (List Char)
  | 0, _ => []
  | 1, s => [s]
  | n + 2, s =>
    match splitOnce sep s with
    | none => [s]
    | some (before, after) => before :: splitn sep (n + 1) after

/-- `str::trim_end_matches` with a character. -/
def trimEndMatches (c : Char) (s : List Char) : List Char :=
  (s.reverse.dropWhile (· == c)).reverse

/-- The first part of `str::rsplit`: the text after the last `sep`. -/
def rsplitNext (sep : Char) (s : List Char) : List Char :=
  (s.reverse.takeWhile (· != sep)).reverse

/-- A character of a string as `Debug` shows it. Beyond Latin-1, what Rust's tables call unprintable
is escaped as well, and stays here. -/
def escapeDebug (c : Char) : List Char :=
  match c with
  | '"' => ['\\', '"']
  | '\\' => ['\\', '\\']
  | '\n' => ['\\', 'n']
  | '\r' => ['\\', 'r']
  | '\t' => ['\\', 't']
  | _ =>
    let n := c.toNat
    if n = 0 then ['\\', '0']
    else if n < 0x20 || (0x7F ≤ n && n < 0xA0) || n = 0xAD then
      "\\u\x7b".toList ++ Nat.toDigits 16 n ++ "\x7d".toList
    else [c]

/-! ### Texts joined by a separator -/

/-- A field without a separator begins right after the last one. -/
theorem cons_eq_append_sep {sep : Char} {s u v : List Char} (hu : sep ∉ u)
    (h : sep :: u = s ++ sep :: v) : s = [] ∧ u = v := by
  cases s with
  | nil => exact ⟨rfl, by simpa using h⟩
  | cons c s =>
    rw [List.cons_append, List.cons.injEq] at h
    exact absurd (by simp [h.2]) hu

/-- A text is cut at its last separator in one way. -/
theorem append_sep_inj {sep : Char} {s t u v : List Char} (hu : sep ∉ u) (hv : sep ∉ v)
    (h : s ++ sep :: u = t ++ sep :: v) : s = t ∧ u = v := by
  rcases List.append_eq_append_iff.mp h with ⟨w, rfl, hcut⟩ | ⟨w, rfl, hcut⟩
  · obtain ⟨rfl, rfl⟩ := cons_eq_append_sep hu hcut
    exact ⟨(List.append_nil s).symm, rfl⟩
  · obtain ⟨rfl, rfl⟩ := cons_eq_append_sep hv hcut
    exact ⟨List.append_nil t, rfl⟩

/-- Two numbers with the same decimal digits are equal. -/
theorem decimal_injective {m n : Nat} (h : decimal m = decimal n) : m = n := by
  calc
    m = Nat.ofDigitChars 10 (decimal m) 0 := Nat.ofDigitChars_ten_toDigits.symm
    _ = Nat.ofDigitChars 10 (decimal n) 0 := by rw [h]
    _ = n := Nat.ofDigitChars_ten_toDigits

/-- No number contains a character that is not a digit. -/
theorem not_mem_decimal {c : Char} (hc : c.isDigit = false) (n : Nat) : c ∉ decimal n := by
  intro hmem
  have := Nat.isDigit_of_mem_toDigits (by decide) (by decide) hmem
  rw [hc] at this
  cases this

/-- The text before a separator comes off first. -/
theorem splitOnce_append {sep : Char} {s : List Char} (hs : sep ∉ s) (t : List Char) :
    splitOnce sep (s ++ sep :: t) = some (s, t) := by
  induction s with
  | nil => simp [splitOnce]
  | cons c s ih =>
    have hc : c ≠ sep := fun heq => hs (heq ▸ List.mem_cons_self)
    have hrest : sep ∉ s := fun hmem => hs (List.mem_cons_of_mem c hmem)
    simp [splitOnce, hc, ih hrest]

/-- There is always a first part. -/
theorem splitn_succ_ne_nil (sep : Char) (n : Nat) (s : List Char) : splitn sep (n + 1) s ≠ [] := by
  cases n with
  | zero => simp [splitn]
  | succ n =>
    unfold splitn
    split <;> simp

/-- A text with a separator is split into at least two parts. -/
theorem splitn_of_splitOnce {sep : Char} {n : Nat} {s before after : List Char}
    (h : splitOnce sep s = some (before, after)) :
    ∃ part parts, splitn sep (n + 2) s = before :: part :: parts := by
  obtain ⟨part, parts, hparts⟩ :=
    List.exists_cons_of_ne_nil (splitn_succ_ne_nil sep n after)
  exact ⟨part, parts, by simp only [splitn, h, hparts]⟩

end Lib.Text
