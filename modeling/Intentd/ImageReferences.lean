import Intentd.UnicodeText
import Mathlib.Algebra.GroupWithZero.Nat

/-!
# Image references in a growing text

Markdown images `![alt](src)` are looked for in a text while it streams in. A scan starts
where the last one stopped: after the last reference it took, or at one that the text does
not close yet. So a reference that is split over chunks is taken once, and a scan of a text
that did not grow finds nothing.

Positions count characters, where the source counts bytes; everything the scanner tests is
an ASCII character.
-/
namespace Intentd.ImageReferences
open UnicodeText

/-- How far an open reference is followed, in bytes. -/
def maxImageRefSpan : ℕ := 4096

def isAsciiPunctuation (c : Char) : Bool :=
  (33 ≤ c.toNat && c.toNat ≤ 47) || (58 ≤ c.toNat && c.toNat ≤ 64) ||
    (91 ≤ c.toNat && c.toNat ≤ 96) || (123 ≤ c.toNat && c.toNat ≤ 126)

def isAsciiWhitespace (c : Char) : Bool := c ∈ [' ', '\t', '\n', '\x0C', '\r']

/-- What a loop of the parser does with a character that is not escaped. -/
inductive Verdict where
  | stop
  | invalid
  | go (depth : ℕ)

/-- Where a loop ends: at a character it stops at, which is still in `rest`. -/
inductive Span where
  | found (inside rest : List Char)
  | incomplete
  | invalid

def Span.push (passed : List Char) : Span → Span
  | found inside rest => found (passed ++ inside) rest
  | incomplete => incomplete
  | invalid => invalid

/-- A loop of the parser. It passes an escaped punctuation character as a pair. -/
def span (judge : ℕ → Char → Verdict) (depth : ℕ) : List Char → Span
  | [] => .incomplete
  | [c] =>
    match judge depth c with
    | .stop => .found [] [c]
    | .invalid => .invalid
    | .go _ => .incomplete
  | c :: d :: rest =>
    if c = '\\' && isAsciiPunctuation d then (span judge depth rest).push [c, d]
    else
      match judge depth c with
      | .stop => .found [] (c :: d :: rest)
      | .invalid => .invalid
      | .go depth => (span judge depth (d :: rest)).push [c]

/-- Balanced brackets, up to the one that closes the label. -/
def label (depth : ℕ) (c : Char) : Verdict :=
  if c = '[' then .go (depth + 1)
  else if c = ']' then if depth = 1 then .stop else .go (depth - 1)
  else .go depth

def angled (depth : ℕ) (c : Char) : Verdict :=
  if c = '>' then .stop
  else if c = '<' || c = '\n' || c = '\r' then .invalid
  else .go depth

/-- Balanced parentheses, up to white space or the one that closes the reference. -/
def bare (depth : ℕ) (c : Char) : Verdict :=
  if c = '(' then .go (depth + 1)
  else if c = ')' then if depth = 0 then .stop else .go (depth - 1)
  else if isAsciiWhitespace c then .stop
  else .go depth

def title (closer : Char) (depth : ℕ) (c : Char) : Verdict :=
  if c = closer then .stop else .go depth

def closerOf (c : Char) : Option Char :=
  if c = '"' then some '"' else if c = '\'' then some '\'' else if c = '(' then some ')' else none

inductive RefParse where
  | complete (src : String) (rest : List Char)
  | incomplete
  | invalid

def skipWhitespace (chars : List Char) : List Char := chars.dropWhile isAsciiWhitespace

def unescapePunctuation : List Char → List Char
  | [] => []
  | [c] => [c]
  | c :: d :: rest =>
    if c = '\\' && isAsciiPunctuation d then unescapePunctuation (d :: rest)
    else c :: unescapePunctuation (d :: rest)

def srcOf (dest : List Char) : String := String.ofList (unescapePunctuation (trim dest))

def afterTitle (dest rest : List Char) : RefParse :=
  match skipWhitespace rest with
  | [] => .incomplete
  | c :: rest => if c = ')' then .complete (srcOf dest) rest else .invalid

/-- What follows a destination: the end of the reference, or a title. -/
def afterDestination (dest rest : List Char) : RefParse :=
  match skipWhitespace rest with
  | [] => .incomplete
  | c :: rest =>
    if c = ')' then .complete (srcOf dest) rest
    else
      match closerOf c with
      | none => .invalid
      | some closer =>
        match span (title closer) 0 rest with
        | .found _ rest => afterTitle dest rest.tail
        | .incomplete => .incomplete
        | .invalid => .invalid

def afterLabel (rest : List Char) : RefParse :=
  match skipWhitespace rest with
  | [] => .incomplete
  | c :: rest =>
    if c = '<' then
      match span angled 0 rest with
      | .found dest rest => afterDestination dest rest.tail
      | .incomplete => .incomplete
      | .invalid => .invalid
    else
      match span bare 0 (c :: rest) with
      | .found dest rest => afterDestination dest rest
      | .incomplete => .incomplete
      | .invalid => .invalid

/-- The label, destination and title of a reference, after its `![`. -/
def parseImageRef (chars : List Char) : RefParse :=
  match span label 1 chars with
  | .found _ rest =>
    match rest.tail with
    | [] => .incomplete
    | c :: rest => if c = '(' then afterLabel rest else .invalid
  | .incomplete => .incomplete
  | .invalid => .invalid

def byteSize (chars : List Char) : ℕ := (chars.map Char.utf8Size).sum

/-- The references in a text and how far the scan went. `skip` characters of it belong to a
reference that was taken. -/
def scan : ℕ → List Char → List String × ℕ
  | _, [] => ([], 0)
  | skip + 1, _ :: rest =>
    let scanned := scan skip rest
    (scanned.1, scanned.2 + 1)
  -- The last character may be the `!` of a reference to come.
  | 0, [_] => ([], 0)
  | 0, c :: d :: rest =>
    let onward := scan 0 (d :: rest)
    if c = '!' && d = '[' then
      match parseImageRef rest with
      | .complete src after =>
        let scanned := scan (rest.length - after.length + 1) (d :: rest)
        (if src = "" then scanned.1 else src :: scanned.1, scanned.2 + 1)
      | .incomplete =>
        if maxImageRefSpan < byteSize (c :: d :: rest) then (onward.1, onward.2 + 1) else ([], 0)
      | .invalid => (onward.1, onward.2 + 1)
    else (onward.1, onward.2 + 1)

def scanImageRefs (text : String) (scanPos : ℕ) : List String × ℕ :=
  let start := min scanPos text.toList.length
  let scanned := scan 0 (text.toList.drop start)
  (scanned.1, start + scanned.2)

theorem scan_cons (c d : Char) (rest : List Char) : scan 0 (c :: d :: rest) = ([], 0) ∨
      ∃ skip, (scan 0 (c :: d :: rest)).2 = (scan skip (d :: rest)).2 + 1 := by
  rw [scan]
  by_cases him : (c = '!' && d = '[') = true
  · rw [if_pos him]
    cases parseImageRef rest with
    | complete src after => exact .inr ⟨_, rfl⟩
    | incomplete =>
      by_cases hs : maxImageRefSpan < byteSize (c :: d :: rest)
      · exact .inr ⟨0, by simp [hs]⟩
      · exact .inl (by simp [hs])
    | invalid => exact .inr ⟨0, rfl⟩
  · rw [if_neg him]
    exact .inr ⟨0, rfl⟩

theorem scan_le (skip : ℕ) (chars : List Char) : (scan skip chars).2 ≤ chars.length := by
  induction chars generalizing skip with
  | nil => simp [scan]
  | cons c rest ih =>
    cases skip with
    | succ skip => exact Nat.succ_le_succ (ih skip)
    | zero =>
      cases rest with
      | nil => simp [scan]
      | cons d rest =>
        rcases scan_cons c d rest with hs | ⟨skip, hgo⟩
        · simp [hs]
        · rw [hgo]
          exact Nat.succ_le_succ (ih skip)

theorem scan_drop (skip : ℕ) (chars : List Char) :
    scan 0 (chars.drop (scan skip chars).2) = ([], 0) := by
  induction chars generalizing skip with
  | nil => simp [scan]
  | cons c rest ih =>
    cases skip with
    | succ skip => exact ih skip
    | zero =>
      cases rest with
      | nil => simp [scan]
      | cons d rest =>
        rcases scan_cons c d rest with hs | ⟨skip, hgo⟩
        · simp [hs]
        · rw [hgo]
          exact ih skip

/-- A scan of a text that did not grow finds nothing and stays where it is. -/
theorem scanImageRefs_again (text : String) (scanPos : ℕ) :
    scanImageRefs text (scanImageRefs text scanPos).2 = ([], (scanImageRefs text scanPos).2) := by
  unfold scanImageRefs
  simp only
  generalize hst : min scanPos text.toList.length = start
  have hb : start + (scan 0 (text.toList.drop start)).2 ≤ text.toList.length := by
    have hs := scan_le 0 (text.toList.drop start)
    rw [List.length_drop] at hs
    omega
  rw [Nat.min_eq_left hb, ← List.drop_drop, scan_drop]
  simp

end Intentd.ImageReferences
