import Intentd.ByteTexts
import Intentd.MachineWords
import Intentd.PageWalks

/-!
# The line pages of a note

A note is read in pages of whole lines, numbered from 1. Each line is served twice, plain and
with its number, and a page stops where a byte budget on both is used up. A line that is too
long by itself is cut, and the next page goes on inside it.

A page serves at least a character of its first line, whatever the budget.
-/
namespace Intentd.NotePages
open ByteTexts MachineWords PageWalks List Nat

structure LineWindow where
  startLine : Option ℕ
  maxLines : Option ℕ
  startOffset : Option ℕ

structure NoteLinePage where
  content : List Char
  numberedContent : List Char
  startLine : ℕ
  startOffset : ℕ
  endLine : ℕ
  totalLines : ℕ
  lineCut : Bool
  cutOffset : Option ℕ
  deriving DecidableEq

inductive NoteWindowError where
  | startLinePastEnd (startLine totalLines : ℕ)
  | invalidStartOffset (startOffset lineLen : ℕ)

namespace NoteLinePage

def start (startLine startOffset totalLines : ℕ) : NoteLinePage :=
  ⟨[], [], startLine, startOffset, startLine - 1, totalLines, false, none⟩

def nextStartLine (page : NoteLinePage) : Option ℕ :=
  if page.cutOffset.isSome then some page.endLine
  else if page.endLine < page.totalLines then some (page.endLine + 1) else none

def nextStartOffset (page : NoteLinePage) : Option ℕ := page.cutOffset

end NoteLinePage

variable (content : List Char)

def lines : List (List Char) := content.splitOn '\n'

/-- The number of a line, at the right of four places. -/
def numberPrefix (number : ℕ) : List Char :=
  replicate (4 - (toDigits 10 number).length) ' ' ++ toDigits 10 number ++ [' ', '|', ' ']

/-- The longest beginning whose escaped size fits. -/
def escapedPrefix (budget : ℕ) : ℕ → List Char → List Char
  | _, [] => []
  | used, c :: text =>
    if budget < used + jsonEscapedLen c then []
    else c :: escapedPrefix budget (used + jsonEscapedLen c) text

structure Bounds where
  startLine : ℕ
  startOffset : ℕ
  maxLines : ℕ
  budget : ℕ

namespace Bounds

variable (b : Bounds)
variable (number : ℕ)

/-- A newline goes before every line but the first. -/
def sep : List Char := if b.startLine < number then ['\n'] else []

/-- What a line adds to both contents. An escaped newline takes two bytes. -/
def cost (text : List Char) : ℕ :=
  2 * (escapedLen text + if b.startLine < number then 2 else 0) + byteLen (numberPrefix number)

/-- The part of a line that is too long. It has at least a character. -/
def cut (line : List Char) : List Char :=
  let text := escapedPrefix ((b.budget - byteLen (numberPrefix number)) / 2) 0 line
  if text = [] then line.take 1 else text

def served (used : ℕ) (line : List Char) : Option (List Char × Option ℕ) :=
  if used + b.cost number line ≤ b.budget then some (line, none)
  else if number = b.startLine then
    let text := b.cut number line
    some (text, if byteLen text < byteLen line then some (b.startOffset + byteLen text) else none)
  else none

def push (text : List Char) (cutOffset : Option ℕ) (page : NoteLinePage) : NoteLinePage :=
  { page with
    content := page.content ++ (b.sep number ++ text)
    numberedContent := page.numberedContent ++ (b.sep number ++ (numberPrefix number ++ text))
    endLine := number
    lineCut := cutOffset.isSome
    cutOffset }

/-- The loop over the lines, of which the first may be the rest of a line. -/
def serve : List (List Char) → ℕ → NoteLinePage → ℕ → NoteLinePage
  | [], _, page, _ => page
  | line :: rest, number, page, used =>
    if b.maxLines ≤ number - b.startLine then page
    else match b.served number used line with
      | none => page
      | some (text, some cutOffset) => b.push number text (some cutOffset) page
      | some (text, none) =>
        serve rest (number + 1) (b.push number text none page) (used + b.cost number text)

end Bounds

def noteLinePage (window : LineWindow) (budget : ℕ) : Except NoteWindowError NoteLinePage :=
  let totalLines := (lines content).length
  let startLine := max (window.startLine.getD 1) 1
  if totalLines < startLine then .error (.startLinePastEnd startLine totalLines)
  else
    let startOffset := window.startOffset.getD 0
    let line := (lines content).getD (startLine - 1) []
    match splitAtByte startOffset line with
    | none => .error (.invalidStartOffset startOffset (byteLen line))
    | some (_, rest) =>
      if 0 < startOffset ∧ byteLen line ≤ startOffset then
        .error (.invalidStartOffset startOffset (byteLen line))
      else
        let b : Bounds := ⟨startLine, startOffset, max (window.maxLines.getD u64Max) 1, budget⟩
        .ok (b.serve (rest :: (lines content).drop startLine) startLine
          (.start startLine startOffset totalLines) 0)

structure Reads where
  budget : ℕ → ℕ
  maxLines : ℕ → Option ℕ

/-- One page, and the line and offset it leaves. -/
def servePage (reads : Reads) (n : ℕ) (cursor : Option ℕ × Option ℕ) :
    Option (NoteLinePage × Option (Option ℕ × Option ℕ)) :=
  match noteLinePage content ⟨cursor.1, reads.maxLines n, cursor.2⟩ (reads.budget n) with
  | .error _ => none
  | .ok page => some (page, page.nextStartLine.map fun line => (some line, page.nextStartOffset))

/-- The pages joined: a page that goes on in a line follows directly, any other after a newline. -/
def joinPages : List NoteLinePage → List Char
  | [] => []
  | [page] => page.content
  | page :: next :: rest =>
    page.content ++ (if 0 < next.startOffset then [] else ['\n']) ++ joinPages (next :: rest)

/-! ## Sizes -/

variable {b : Bounds} {number : ℕ} {text : List Char}

section Sizes

variable {page : NoteLinePage} {cutOffset : Option ℕ}

def NoteLinePage.size (page : NoteLinePage) : ℕ :=
  escapedLen page.content + escapedLen page.numberedContent

theorem jsonEscapedLen_digit {c : Char} (h : c.isDigit = true) : jsonEscapedLen c = c.utf8Size := by
  have hr : 48 ≤ c.toNat ∧ c.toNat ≤ 57 := by
    rwa [Char.isDigit, Bool.and_eq_true, decide_eq_true_eq, decide_eq_true_eq] at h
  have hp : c ∉ ['"', '\\', '\n', '\r', '\t', '\x08', '\x0c'] := by
    intro hmem
    simp only [mem_cons, not_mem_nil, or_false] at hmem
    rcases hmem with rfl | rfl | rfl | rfl | rfl | rfl | rfl <;> exact absurd h Bool.false_ne_true
  rw [jsonEscapedLen, if_neg hp, if_neg (by omega)]

theorem escapedLen_numberPrefix (number : ℕ) :
    escapedLen (numberPrefix number) = byteLen (numberPrefix number) := by
  refine congrArg sum (map_congr_left fun c hc => ?_)
  rw [numberPrefix, mem_append, mem_append] at hc
  rcases hc with (hc | hc) | hc
  · rw [eq_of_mem_replicate hc]
    rfl
  · exact jsonEscapedLen_digit (isDigit_of_mem_toDigits (b := 10) (by decide) (by decide) hc)
  · simp only [mem_cons, not_mem_nil, or_false] at hc
    rcases hc with rfl | rfl | rfl <;> rfl

theorem escapedLen_sep (b : Bounds) (number : ℕ) :
    escapedLen (b.sep number) = if b.startLine < number then 2 else 0 := by
  rw [Bounds.sep]
  split <;> rfl

theorem size_push (b : Bounds) (number : ℕ) (text : List Char) (cutOffset : Option ℕ)
    (page : NoteLinePage) :
    (b.push number text cutOffset page).size = page.size + b.cost number text := by
  simp only [NoteLinePage.size, Bounds.push, Bounds.cost, escapedLen_append,
    escapedLen_numberPrefix, escapedLen_sep]
  omega

theorem escapedPrefix_spec (budget used : ℕ) (text : List Char) :
    ∃ rest, text = escapedPrefix budget used text ++ rest ∧
      (used ≤ budget → used + escapedLen (escapedPrefix budget used text) ≤ budget) := by
  induction text generalizing used with
  | nil => exact ⟨[], rfl, by simp [escapedPrefix]⟩
  | cons c text ih =>
    rw [escapedPrefix]
    split
    · exact ⟨c :: text, rfl, by simp⟩
    next hf =>
      obtain ⟨rest, hr, hle⟩ := ih (used + jsonEscapedLen c)
      refine ⟨rest, by rw [cons_append, ← hr], fun _ => ?_⟩
      rw [escapedLen_cons]
      omega

/-- The part of a line that is cut off is a beginning of it, and within the budget unless it is
a single character. -/
theorem cut_spec (b : Bounds) (number : ℕ) (line : List Char) :
    ∃ rest, line = b.cut number line ++ rest ∧ (line ≠ [] → b.cut number line ≠ []) ∧
      ((b.cut number line).length ≤ 1 ∨
        2 * escapedLen (b.cut number line) + byteLen (numberPrefix number) ≤ b.budget) := by
  obtain ⟨rest, hr, hle⟩ :=
    escapedPrefix_spec ((b.budget - byteLen (numberPrefix number)) / 2) 0 line
  rw [Bounds.cut]
  split
  · refine ⟨line.drop 1, (take_append_drop 1 line).symm, fun hne => ?_, Or.inl ?_⟩
    · cases line with
      | nil => exact absurd rfl hne
      | cons c line => exact cons_ne_nil _ _
    · exact length_take_le 1 line
  next hne =>
    refine ⟨rest, hr, fun _ => hne, Or.inr ?_⟩
    have hpos : 0 <
        escapedLen (escapedPrefix ((b.budget - byteLen (numberPrefix number)) / 2) 0 line) := by
      obtain ⟨c, text, ht⟩ := exists_cons_of_ne_nil hne
      rw [ht, escapedLen_cons]
      exact Nat.add_pos_left (jsonEscapedLen_pos c) _
    omega

end Sizes

/-! ## One page -/

variable {rest later : List (List Char)} {first : List Char}

section Page

variable {page : NoteLinePage}
variable {line : List Char} {used : ℕ}

theorem serve_stop (h : b.maxLines ≤ number - b.startLine ∨ b.served number used line = none) :
    b.serve (line :: rest) number page used = page := by
  rw [Bounds.serve]
  split
  · rfl
  next hmax => rw [h.resolve_left hmax]

theorem serve_whole (hmax : ¬ b.maxLines ≤ number - b.startLine)
    (h : b.served number used line = some (text, none)) :
    b.serve (line :: rest) number page used =
      b.serve rest (number + 1) (b.push number text none page) (used + b.cost number text) := by
  rw [Bounds.serve, if_neg hmax, h]

theorem serve_fixed (b : Bounds) (rest : List (List Char)) (number used : ℕ) (page : NoteLinePage) :
    (b.serve rest number page used).startLine = page.startLine ∧
      (b.serve rest number page used).startOffset = page.startOffset ∧
      (b.serve rest number page used).totalLines = page.totalLines := by
  induction rest generalizing number used page with
  | nil => exact ⟨rfl, rfl, rfl⟩
  | cons line rest ih =>
    rw [Bounds.serve]
    split
    · exact ⟨rfl, rfl, rfl⟩
    · split
      · exact ⟨rfl, rfl, rfl⟩
      · exact ⟨rfl, rfl, rfl⟩
      · exact ih _ _ _

theorem serve_more (rest : List (List Char)) (number used : ℕ) (page : NoteLinePage)
    (hnu : b.startLine < number)
    (hend : page.endLine + 1 = number) (hus : used = page.size) (hcut : page.cutOffset = none) :
    ∃ k ≤ rest.length, (b.serve rest number page used).content =
        page.content ++ (rest.take k).flatMap (fun line => '\n' :: line) ∧
      (b.serve rest number page used).endLine = page.endLine + k ∧
      (b.serve rest number page used).cutOffset = none ∧
      (k = 0 ∧ b.serve rest number page used = page ∨
        (b.serve rest number page used).size ≤ b.budget) := by
  induction rest generalizing number used page with
  | nil => exact ⟨0, le_refl _, by simp [Bounds.serve], rfl, hcut, Or.inl ⟨rfl, rfl⟩⟩
  | cons line rest ih =>
    by_cases hgo : ¬ b.maxLines ≤ number - b.startLine ∧ used + b.cost number line ≤ b.budget
    · have hse : b.served number used line = some (line, none) := if_pos hgo.2
      have hsi := size_push b number line none page
      obtain ⟨k, hk, hco, hen', hcu', hbo⟩ := ih (number + 1) (used + b.cost number line)
        (b.push number line none page) (lt_succ_of_lt hnu) rfl (by rw [hsi, hus]) rfl
      rw [serve_whole hgo.1 hse]
      refine ⟨k + 1, succ_le_succ hk, ?_, ?_, hcu', Or.inr ?_⟩
      · rw [hco]
        simp [Bounds.push, Bounds.sep, hnu]
      · rw [hen']
        simp only [Bounds.push]
        omega
      · rcases hbo with ⟨-, hsa⟩ | hbo
        · rw [hsa, hsi, ← hus]
          exact hgo.2
        · exact hbo
    · have hst : b.maxLines ≤ number - b.startLine ∨ b.served number used line = none := by
        rw [Bounds.served, if_neg (ne_of_gt hnu)]
        by_cases hmax : b.maxLines ≤ number - b.startLine
        · exact Or.inl hmax
        · exact Or.inr (if_neg fun hfi => hgo ⟨hmax, hfi⟩)
      rw [serve_stop hst]
      exact ⟨0, zero_le _, by simp, rfl, hcut, Or.inl ⟨rfl, rfl⟩⟩

/-- A page within its budget, or a single character of one line or an empty line. -/
def NoteLinePage.Fits (budget : ℕ) (page : NoteLinePage) : Prop :=
  page.size ≤ budget ∨ page.endLine = page.startLine ∧ page.content.length ≤ 1

/-- What a page serves of the rest of its first line and the lines after it. -/
inductive Serves (first : List Char) (later : List (List Char)) (page : NoteLinePage) : Prop
  | cut (text rest : List Char) (hfirst : first = text ++ rest) (htext : text ≠ [])
      (hrest : rest ≠ []) (hcontent : page.content = text) (hend : page.endLine = page.startLine)
      (hcut : page.cutOffset = some (page.startOffset + byteLen text)) : Serves first later page
  | whole (k : ℕ) (hk : k ≤ later.length)
      (hcontent : page.content = first ++ (later.take k).flatMap fun line => '\n' :: line)
      (hend : page.endLine = page.startLine + k) (hcut : page.cutOffset = none) :
        Serves first later page

section First

variable {total : ℕ}

/-- The page as it is when its first line is reached. -/
def Bounds.blank (b : Bounds) (total : ℕ) : NoteLinePage := .start b.startLine b.startOffset total

theorem content_push_first (b : Bounds) (text : List Char) (cutOffset : Option ℕ) (total : ℕ) :
    (b.push b.startLine text cutOffset (b.blank total)).content = text := by
  simp [Bounds.push, Bounds.sep, Bounds.blank, NoteLinePage.start]

theorem size_push_first (b : Bounds) (text : List Char) (cutOffset : Option ℕ) (total : ℕ) :
    (b.push b.startLine text cutOffset (b.blank total)).size = b.cost b.startLine text := by
  rw [size_push]
  exact zero_add _

theorem serve_after (hmax : 0 < b.maxLines)
    (hfi : b.served b.startLine 0 first = some (first, none))
    (hf : b.cost b.startLine first ≤ b.budget ∨ first.length ≤ 1) :
    Serves first later (b.serve (first :: later) b.startLine (b.blank total) 0) ∧
      (b.serve (first :: later) b.startLine (b.blank total) 0).Fits b.budget := by
  have hp := size_push_first b first none total
  have hc := content_push_first b first none total
  obtain ⟨k, hk, hc', hend, hcut, hb⟩ :=
    serve_more later (b.startLine + 1) (0 + b.cost b.startLine first)
    (b.push b.startLine first none (b.blank total)) (lt_succ_self _) rfl (by rw [hp, zero_add]) rfl
  obtain ⟨hs, -, -⟩ := serve_fixed b (first :: later) b.startLine 0 (b.blank total)
  rw [serve_whole (by omega) hfi] at hs ⊢
  rw [hc] at hc'
  refine ⟨.whole k hk hc' ?_ hcut, ?_⟩
  · rw [hend, hs]
    rfl
  · rcases hb with ⟨rfl, hsa⟩ | hb
    · rw [hsa]
      rcases hf with hf | hone
      · exact Or.inl (hp ▸ hf)
      · exact Or.inr ⟨rfl, by rwa [hc]⟩
    · exact Or.inl hb

theorem serve_first (b : Bounds) (hmax : 0 < b.maxLines) (first : List Char)
    (later : List (List Char)) (total : ℕ) :
    Serves first later (b.serve (first :: later) b.startLine (b.blank total) 0) ∧
      (b.serve (first :: later) b.startLine (b.blank total) 0).Fits b.budget := by
  by_cases hfi : 0 + b.cost b.startLine first ≤ b.budget
  · exact serve_after hmax (if_pos hfi) (Or.inl (by omega))
  obtain ⟨rest, hr, hne, hb⟩ := cut_spec b b.startLine first
  have hs : b.served b.startLine 0 first = _ := (if_neg hfi).trans (if_pos rfl)
  generalize b.cut b.startLine first = text at hr hne hb hs
  have hco : b.cost b.startLine text = 2 * escapedLen text +
      byteLen (numberPrefix b.startLine) := by
    simp [Bounds.cost]
  dsimp only at hs
  by_cases hl : byteLen text < byteLen first
  · -- the line goes on
    have hre : rest ≠ [] := by
      rintro rfl
      rw [append_nil] at hr
      rw [← hr] at hl
      exact lt_irrefl _ hl
    have hf : first ≠ [] := by
      rintro rfl
      exact not_lt_zero _ hl
    rw [if_pos hl] at hs
    rw [Bounds.serve, if_neg (by omega), hs]
    have hc := content_push_first b text (some (b.startOffset + byteLen text)) total
    refine ⟨.cut _ rest hr (hne hf) hre hc rfl rfl, ?_⟩
    rcases hb with hone | hb
    · exact Or.inr ⟨rfl, by rwa [hc]⟩
    · exact Or.inl (by rw [size_push_first, hco]; exact hb)
  · -- the line ends with its cut
    have hw : text = first := by
      have hlen := congrArg byteLen hr
      rw [byteLen_append] at hlen
      have hnil : rest = [] := byteLen_eq_zero.mp (by omega)
      rw [hnil, append_nil] at hr
      exact hr.symm
    rw [if_neg hl, hw] at hs
    rw [hw] at hb hco
    exact serve_after hmax hs (hb.symm.imp_left fun h => by omega)

end First

end Page

/-! ## The walk -/

variable {cursor : Option ℕ × Option ℕ}

section Walk

variable {content : List Char} {line offset : ℕ} {n k : ℕ} {l : List Char} {ls : List (List Char)}
  {reads : Reads}

def textOf (first : List Char) (later : List (List Char)) : List Char :=
  first ++ later.flatMap fun line => '\n' :: line

/-- A place in a note: what is left of its line, and the lines after it. -/
structure At (content : List Char) (line offset : ℕ) (first : List Char)
    (later : List (List Char)) : Prop where
  line_pos : 1 ≤ line
  inside : 0 < offset → first ≠ []
  lines_eq : ∃ before, byteLen before = offset ∧
    (lines content).drop (line - 1) = (before ++ first) :: later

theorem At.length_lines (h : At content line offset first later) :
    (lines content).length = line + later.length := by
  obtain ⟨before, -, hl⟩ := h.lines_eq
  have hlen := congrArg length hl
  rw [length_drop, length_cons] at hlen
  have hpos := h.line_pos
  omega

theorem At.drop_lines (h : At content line offset first later) :
    (lines content).drop line = later := by
  obtain ⟨before, -, hl⟩ := h.lines_eq
  have ht := congrArg List.tail hl
  rwa [tail_drop, Nat.sub_add_cancel h.line_pos] at ht

theorem getD_of_drop (h : ls.drop n = l :: rest) : ls.getD n [] = l := by
  have hh := congrArg head? h
  rw [head?_drop, head?_cons] at hh
  rw [getD_eq_getElem?_getD, hh]
  rfl

theorem At.page (h : At content line offset first later) (window : LineWindow)
    (hlin : max (window.startLine.getD 1) 1 = line) (hof : window.startOffset.getD 0 = offset)
    (budget : ℕ) :
    ∃ page, noteLinePage content window budget = .ok page ∧
      Serves first later page ∧ page.Fits budget ∧
      page.startLine = line ∧ page.startOffset = offset ∧
        page.totalLines = line + later.length := by
  obtain ⟨before, hbe, hli⟩ := h.lines_eq
  have hlen := h.length_lines
  have hget := getD_of_drop hli
  have hsp : splitAtByte offset (before ++ first) = some (before, first) :=
    hbe ▸ splitAtByte_append before first
  have hin : ¬ (0 < offset ∧ byteLen (before ++ first) ≤ offset) := by
    rintro ⟨hpos, hle⟩
    have hfir := byteLen_pos (h.inside hpos)
    rw [byteLen_append] at hle
    omega
  have hmax : 0 < max (window.maxLines.getD u64Max) 1 :=
    lt_of_lt_of_le Nat.zero_lt_one (le_max_right _ _)
  generalize hb : Bounds.mk line offset (max (window.maxLines.getD u64Max) 1) budget = b
  have hpa : noteLinePage content window budget =
      .ok (b.serve (first :: later) b.startLine (b.blank (lines content).length) 0) := by
    rw [← hb]
    simp only [noteLinePage, hlin, hof, hget, hsp, if_neg hin, h.drop_lines]
    exact if_neg (by omega)
  obtain ⟨hse, hfi⟩ := serve_first b (hb ▸ hmax) first later (lines content).length
  obtain ⟨hli', hof', hto⟩ :=
    serve_fixed b (first :: later) b.startLine 0 (b.blank (lines content).length)
  rw [← hlen]
  refine ⟨_, hpa, hse, ?_, ?_, ?_, hto⟩
  · rwa [show b.budget = budget by rw [← hb]] at hfi
  · rw [hli', ← hb]
    rfl
  · rw [hof', ← hb]
    rfl

def lineOf (cursor : Option ℕ × Option ℕ) : ℕ := max (cursor.1.getD 1) 1

def offsetOf (cursor : Option ℕ × Option ℕ) : ℕ := cursor.2.getD 0

theorem At.after_cut {rest : List Char} (h : At content line offset (text ++ rest) later)
    (hr : rest ≠ []) : At content line (offset + byteLen text) rest later := by
  obtain ⟨before, hb, hl⟩ := h.lines_eq
  refine ⟨h.line_pos, fun _ => hr, before ++ text, by rw [byteLen_append, hb], ?_⟩
  rw [hl, append_assoc]

theorem At.after_whole (h : At content line offset first later) (hk : k < later.length) :
    ∃ next rest, later.drop k = next :: rest ∧ At content (line + k + 1) 0 next rest := by
  obtain ⟨next, rest, hd⟩ : ∃ next rest, later.drop k = next :: rest :=
    ⟨_, _, drop_eq_getElem_cons hk⟩
  refine ⟨next, rest, hd, le_add_left _ _, fun hpos => absurd hpos (lt_irrefl 0), [], rfl, ?_⟩
  rw [Nat.add_sub_cancel, ← drop_drop, h.drop_lines, hd]
  rfl

theorem textOf_split (first : List Char) {next : List Char} (h : later.drop k = next :: rest) :
    textOf first later =
      (first ++ (later.take k).flatMap fun line => '\n' :: line) ++ '\n' :: textOf next rest := by
  have hs : later.flatMap (fun line => '\n' :: line) =
      (later.take k ++ next :: rest).flatMap fun line => '\n' :: line := by
    rw [← h, take_append_drop]
  rw [textOf, textOf, hs]
  simp

/-- A page of a text, and what it leaves at the next cursor. -/
structure Leaves (content all : List Char) (page : NoteLinePage) (next : Option ℕ × Option ℕ)
    (first : List Char) (later : List (List Char)) : Prop where
  place : At content (lineOf next) (offsetOf next) first later
  joined : all = page.content ++ (if 0 < offsetOf next then [] else ['\n']) ++ textOf first later
  less : (textOf first later).length < all.length

variable {page : NoteLinePage}

theorem leaves_cut {rest : List Char}
    (h : At content (lineOf cursor) (offsetOf cursor) (text ++ rest) later) (ht : text ≠ [])
    (hr : rest ≠ []) (hc : page.content = text) :
    Leaves content (textOf (text ++ rest) later) page (some (lineOf cursor),
      some (offsetOf cursor + byteLen text))
      rest later := by
  have hp := h.after_cut hr
  have hpos : 0 < offsetOf (some (lineOf cursor), some (offsetOf cursor + byteLen text)) :=
    Nat.add_pos_right _ (byteLen_pos ht)
  have hj : textOf (text ++ rest) later = text ++ textOf rest later := append_assoc _ _ _
  rw [← max_eq_left h.line_pos] at hp
  refine ⟨hp, ?_, ?_⟩
  · rw [hj, hc, if_pos hpos, append_nil]
  · rw [hj, length_append]
    exact Nat.lt_add_of_pos_left (length_pos_of_ne_nil ht)

theorem leaves_whole (h : At content (lineOf cursor) (offsetOf cursor) first later)
    (hk : k < later.length)
    (hc : page.content = first ++ (later.take k).flatMap fun line => '\n' :: line) :
    ∃ next rest, Leaves content (textOf first later) page (some (lineOf cursor + k + 1),
      none) next rest := by
  obtain ⟨next, rest, hd, hp⟩ := h.after_whole hk
  rw [← max_eq_left (le_add_left 1 (lineOf cursor + k))] at hp
  refine ⟨next, rest, hp, ?_, ?_⟩
  · rw [textOf_split first hd, hc, append_assoc _ _ (textOf next rest)]
    rfl
  · rw [textOf_split first hd, length_append, length_cons]
    omega

theorem page_step (h : At content (lineOf cursor) (offsetOf cursor) first later)
    (reads : Reads) (n : ℕ) :
    ∃ page next, servePage content reads n cursor = some (page, next) ∧
      page.startOffset = offsetOf cursor ∧
      page.Fits (reads.budget n) ∧ (next = none → page.content = textOf first later) ∧
      ∀ cursor', next = some cursor' → ∃ first' later',
        Leaves content (textOf first later) page cursor' first' later' := by
  obtain ⟨page, hpa, hse, hfit, hli, hof, hto⟩ :=
    h.page ⟨cursor.1, reads.maxLines n, cursor.2⟩ rfl rfl (reads.budget n)
  have hser : servePage content reads n cursor =
      some (page, page.nextStartLine.map fun line => (some line, page.nextStartOffset)) := by
    rw [servePage, hpa]
  refine ⟨page, _, hser, hof, hfit, ?_⟩
  cases hse with
  | cut text rest hfi hte hre hco hend hcut =>
    subst hfi
    have hne : page.nextStartLine = some (lineOf cursor) := by
      rw [NoteLinePage.nextStartLine, hcut, hend, hli]
      rfl
    rw [hne, NoteLinePage.nextStartOffset, hcut, hof]
    refine ⟨fun hno => (Option.some_ne_none _ hno).elim, fun cursor' hcu => ?_⟩
    cases hcu
    exact ⟨rest, later, leaves_cut h hte hre hco⟩
  | whole k hk hco hend hcut =>
    have hne : page.nextStartLine =
        if k < later.length then some (lineOf cursor + k + 1) else none := by
      simp only [NoteLinePage.nextStartLine, hcut, hend, hli, hto, Nat.add_lt_add_iff_left]
      rfl
    rw [hne, NoteLinePage.nextStartOffset, hcut]
    by_cases hla : k < later.length
    · rw [if_pos hla]
      refine ⟨fun hno => (Option.some_ne_none _ hno).elim, fun cursor' hcu => ?_⟩
      cases hcu
      exact leaves_whole h hla hco
    · rw [if_neg hla]
      refine ⟨fun _ => ?_, fun cursor' hcu => (Option.some_ne_none _ hcu.symm).elim⟩
      rw [hco, take_of_length_le (Nat.le_of_not_lt hla)]
      rfl

structure Rebuilds (reads : Reads) (n offset : ℕ) (text : List Char) (pages : List NoteLinePage) :
    Prop where
  first : (pages.head?.map NoteLinePage.startOffset) = some offset
  joined : joinPages pages = text
  fits : ∀ (i : ℕ) (page : NoteLinePage), pages[i]? = some page → page.Fits (reads.budget (n + i))

theorem Rebuilds.last (ho : page.startOffset = offset) (hf : page.Fits (reads.budget n))
    (hc : page.content = text) : Rebuilds reads n offset text [page] := by
  refine ⟨congrArg some ho, hc, fun i p hp => ?_⟩
  cases i with
  | zero =>
    cases hp
    exact hf
  | succ i => cases hp

theorem Rebuilds.cons {next : Option ℕ × Option ℕ} {rest : List NoteLinePage}
    (ho : page.startOffset = offset) (hf : page.Fits (reads.budget n))
    (hl : Leaves content text page next first later)
    (hr : Rebuilds reads (n + 1) (offsetOf next) (textOf first later) rest) :
    Rebuilds reads n offset text (page :: rest) := by
  cases rest with
  | nil => cases hr.first
  | cons q rest =>
    have hq : q.startOffset = offsetOf next := Option.some.inj hr.first
    refine ⟨congrArg some ho, ?_, fun i p hp => ?_⟩
    · rw [joinPages, hq, hr.joined, hl.joined]
    · cases i with
      | zero =>
        cases hp
        exact hf
      | succ i =>
        have hp := hr.fits i p hp
        rwa [add_right_comm n 1 i] at hp

theorem pages_rebuild (reads : Reads) {fuel : ℕ}
    (h : At content (lineOf cursor) (offsetOf cursor) first later)
    (hfu : (textOf first later).length < fuel) :
      ∃ pages, follow (servePage content reads) fuel 0 cursor = some pages ∧
      Rebuilds reads 0 (offsetOf cursor) (textOf first later) pages := by
  refine follow_ends_with (I := fun _ cursor g => ∃ first later,
      At content (lineOf cursor) (offsetOf cursor) first later ∧ g = (offsetOf cursor,
        textOf first later))
    (Q := fun n g => Rebuilds reads n g.1 g.2) (fun g => g.2.length) ?_ ⟨first, later, h, rfl⟩ hfu
  rintro n cursor _ ⟨first, later, hpl, rfl⟩
  obtain ⟨page, next, hse, hof, hfi, hla, hmo⟩ := page_step hpl reads n
  refine ⟨page, next, hse, fun hno => .last hof hfi (hla hno), fun cursor' hcu => ?_⟩
  obtain ⟨first', later', hle⟩ := hmo cursor' hcu
  exact ⟨_, ⟨first', later', hle.place, rfl⟩, hle.less, fun rest hre => .cons hof hfi hle hre⟩

/-- An offset into a line that the first page may start at. -/
def ValidOffset (line : List Char) (offset : ℕ) : Prop :=
  offset = 0 ∨ offset < byteLen line ∧ (splitAtByte offset line).isSome = true

instance (line : List Char) (offset : ℕ) : Decidable (ValidOffset line offset) :=
  inferInstanceAs (Decidable (_ ∨ _))

theorem content_eq_textOf (h : lines content = l :: ls) : content = textOf l ls := by
  have hj : ∀ (l : List Char) (ls : List (List Char)),
      ['\n'].intercalate (l :: ls) = textOf l ls := by
    intro l ls
    induction ls generalizing l with
    | nil => simp [textOf]
    | cons l' ls ih =>
      rw [intercalate_cons_cons, ih]
      simp [textOf]
  have hc : ['\n'].intercalate (lines content) = content := intercalate_splitOn '\n'
  rw [h, hj] at hc
  exact hc.symm

theorem start_at {startLine startOffset : Option ℕ} (hline : startLine.getD 1 ≤ 1)
    (hoffset : ValidOffset ((lines content).headD []) (startOffset.getD 0)) :
    ∃ before first later, content = before ++ textOf first later ∧
      byteLen before = startOffset.getD 0 ∧
      At content (lineOf (startLine, startOffset)) (offsetOf (startLine, startOffset))
        first later := by
  obtain ⟨l, ls, hls⟩ := exists_cons_of_ne_nil (splitOn_ne_nil '\n' content)
  have hlines : lines content = l :: ls := hls
  have hfirst : lineOf (startLine, startOffset) = 1 := max_eq_right hline
  rw [hlines, headD_cons] at hoffset
  have hsplit : ∃ before first, l = before ++ first ∧ byteLen before = startOffset.getD 0 ∧
      (0 < startOffset.getD 0 → first ≠ []) := by
    rcases hoffset with hzero | ⟨hlt, hsome⟩
    · exact ⟨[], l, rfl, hzero.symm, fun hpos => by omega⟩
    · obtain ⟨⟨before, first⟩, hbefore⟩ := Option.isSome_iff_exists.mp hsome
      obtain ⟨hl, hlen⟩ := splitAtByte_eq_some.mp hbefore
      refine ⟨before, first, hl, hlen, fun _ hnil => ?_⟩
      rw [hl, hnil, append_nil, hlen] at hlt
      exact lt_irrefl _ hlt
  obtain ⟨before, first, hl, hlen, hne⟩ := hsplit
  refine ⟨before, first, ls, ?_, hlen, ?_⟩
  · rw [content_eq_textOf hlines, hl, textOf, textOf, append_assoc]
  · rw [hfirst]
    refine ⟨le_refl _, hne, before, hlen, ?_⟩
    rw [Nat.sub_self, drop_zero, hlines, hl]

/-- From every valid window at line 1 the pages of a note end, without an error, and rebuild the
note. -/
theorem note_pages_rebuild (content : List Char) (reads : Reads) (startLine startOffset : Option ℕ)
    (hline : startLine.getD 1 ≤ 1)
    (hoffset : ValidOffset ((lines content).headD []) (startOffset.getD 0)) :
    ∃ pages before, follow (servePage content reads) (content.length + 1) 0 (startLine,
      startOffset) = some pages ∧
      content = before ++ joinPages pages ∧ byteLen before = startOffset.getD 0 ∧
      ∀ (i : ℕ) (page : NoteLinePage), pages[i]? = some page → page.Fits (reads.budget i) := by
  obtain ⟨before, first, later, hc, hlen, hp⟩ := start_at hline hoffset
  have hl : (textOf first later).length < content.length + 1 := by
    have ht := congrArg length hc
    rw [length_append] at ht
    omega
  obtain ⟨pages, hpa, hre⟩ := pages_rebuild reads hp hl
  refine ⟨pages, before, hpa, hre.joined ▸ hc, hlen, fun i page hpag => ?_⟩
  have hf := hre.fits i page hpag
  rwa [zero_add] at hf

theorem note_pages_rebuild_resumed : ∃ pages before,
      follow (servePage "añb\nc".toList ⟨fun _ => 11, fun _ => some 1⟩) 6 0 (none, some 1) =
        some pages ∧ "añb\nc".toList = before ++ joinPages pages ∧ byteLen before = 1 ∧
      ∀ (i : ℕ) (page : NoteLinePage), pages[i]? = some page → page.Fits 11 :=
  note_pages_rebuild "añb\nc".toList ⟨fun _ => 11, fun _ => some 1⟩ none (some 1)
    (by decide) (by decide)

end Walk

end Intentd.NotePages
