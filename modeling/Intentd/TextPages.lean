import Intentd.ByteTexts
import Intentd.PageWalks
import Intentd.PageWindows
import Intentd.UnicodeText
import Mathlib.Data.List.DropRight

/-!
# The pages of a text

Terminal and script output is read in pages of lines, newest first, within a budget of escaped
bytes. A newest line that is too long by itself is served by its end, and the next page goes on
with what comes before in the line. The text grows between the calls: its last line may go on,
and blank lines at its end, which are left out, may be followed by others.
-/
namespace Intentd.TextPages
open ByteTexts PageWindows PageWalks List Option Nat

def outputTailMaxJsonBytes : ℕ := 480000

def isBlank (line : List Char) : Bool := line.all UnicodeText.isWhitespace

/-- The lines of a text without the blank ones at its end. -/
def outputLines (text : List Char) : List (List Char) := (text.splitOn '\n').rdropWhile isBlank

/-- `&text[..floor_char_boundary(text, index)]` -/
def floorPart : ℕ → List Char → List Char
  | _, [] => []
  | index, c :: text => if c.utf8Size ≤ index then c :: floorPart (index - c.utf8Size) text else []

/-- The part after the first newline, if there is one that is not the last character. -/
def afterNewline (kept : List Char) : List Char :=
  match kept.dropWhile (fun c => c ≠ '\n') with
  | _ :: d :: rest => d :: rest
  | _ => kept

/-- The loop of `tail_within_json_bytes` over the characters from the last on. -/
def tailFrom (budget : ℕ) : List Char → ℕ → List Char → List Char
  | [], _, kept => kept
  | c :: before, used, kept =>
    if budget < used + jsonEscapedLen c then
      if c = '\n' then kept else afterNewline kept
    else tailFrom budget before (used + jsonEscapedLen c) (c :: kept)

def tailWithinJsonBytes (text : List Char) (budget : ℕ) : List Char :=
  tailFrom budget text.reverse 0 []

structure Taken where
  items : List (List Char)
  firstKept : ℕ
  resumeInLine : Option (ℕ × ℕ)

/-- The loop of `bound_text_page` over the lines from the newest on. -/
def take : List (List Char) → List (List Char) → ℕ → ℕ → Taken
  | [], items, _, firstKept => ⟨items, firstKept, none⟩
  | line :: rest, items, used, firstKept =>
    if outputTailMaxJsonBytes < used + (escapedLen line + 3) then
      if items = [] then
        let tail := tailWithinJsonBytes line (outputTailMaxJsonBytes - 3)
        ⟨[tail], firstKept, some (firstKept, byteLen line - byteLen tail)⟩
      else ⟨items, firstKept, none⟩
    else take rest (items ++ [line]) (used + (escapedLen line + 3)) (firstKept - 1)

structure TextPage where
  items : List (List Char)
  nextToken : Option String
  lineContinues : Bool

section Serve

variable (codec : TokenCodec)

def boundTextPage (window : List (List Char)) (start : ℕ) (nextToken : Option String) : TextPage :=
  let taken := take window.reverse [] 0 (start + window.length)
  ⟨taken.items,
    match taken.resumeInLine with
    | some (stop, cut) => some (codec.encodeToken ⟨some stop, none, some cut⟩)
    | none =>
      if start < taken.firstKept then remintBackwardToken codec taken.firstKept else nextToken,
    taken.resumeInLine.isSome⟩

/-- The window of a text page, and the bytes of its newest line that are left. -/
def textPageWindow (len : ℕ) (limit : Option ℤ) (token : Option String) : PageWindow × Option ℕ :=
  let win := pageWindow codec len limit token
  let cut := do
    let cursor ← token.bind codec.decodeToken
    let boundary ← cursor.b
    let cut ← cursor.c
    if boundary = win.stop ∧ win.start < win.stop then some cut else none
  (win, cut)

def cutLast (cut : Option ℕ) (window : List (List Char)) : List (List Char) :=
  match cut, window.getLast? with
  | some cut, some last => window.dropLast ++ [floorPart cut last]
  | _, _ => window

def paginateTextLines (text : List Char) (limit : Option ℤ) (token : Option String) : TextPage :=
  let lines := outputLines text
  let (win, cut) := textPageWindow codec lines.length limit token
  boundTextPage codec (cutLast cut (lines.extract win.start win.stop)) win.start win.nextToken

end Serve

/-- The calls of a reader: the text at each of them and the limit asked for. -/
structure Reads where
  text : ℕ → List Char
  limit : ℕ → Option ℤ
  grows : ∀ n, text n <+: text (n + 1)

def servePage (codec : TokenCodec) (reads : Reads) (n : ℕ) (token : Option String) :
    Option (TextPage × Option (Option String)) :=
  let page := paginateTextLines codec (reads.text n) (reads.limit n) token
  some (page, page.nextToken.map some)

/-- Lines with the first of the next ones joined in front of the last of them. -/
def glue : List (List Char) → List (List Char) → List (List Char)
  | [], later => later
  | [piece], line :: later => (line ++ piece) :: later
  | line :: items, later => line :: glue items later

def joinPages : List TextPage → List (List Char)
  | [] => []
  | page :: rest =>
    if page.lineContinues then glue page.items (joinPages rest) else page.items ++ joinPages rest

/-- Bytes of lines, each with its quotes and comma. -/
def linesSize (items : List (List Char)) : ℕ := (items.map fun line => escapedLen line + 3).sum

def TextPage.size (page : TextPage) : ℕ := linesSize page.items

/-! ## Cutting a line -/

variable {text : List Char}

section Cut

variable {budget : ℕ}

theorem floorPart_append (before after : List Char) :
    floorPart (byteLen before) (before ++ after) = before := by
  induction before with
  | nil =>
    cases after with
    | nil => rfl
    | cons c after =>
      have hpos := c.utf8Size_pos
      exact if_neg (by rw [byteLen_nil]; omega)
  | cons c before ih =>
    rw [cons_append, floorPart, byteLen_cons, if_pos (le_add_right _ _),
      Nat.add_sub_cancel_left, ih]

theorem afterNewline_spec (kept : List Char) :
    ∃ dropped, kept = dropped ++ afterNewline kept ∧ (kept ≠ [] → afterNewline kept ≠ []) := by
  rw [afterNewline]
  split
  next c d rest hd =>
    refine ⟨kept.takeWhile (fun c => c ≠ '\n') ++ [c], ?_, fun _ => cons_ne_nil _ _⟩
    have hs := takeWhile_append_dropWhile (p := fun c => c ≠ '\n') (l := kept)
    rw [hd] at hs
    rw [append_assoc]
    exact hs.symm
  next => exact ⟨[], rfl, id⟩

/-- The end of a text that is kept fits, and something is kept and something is left. -/
theorem tailFrom_spec (before : List Char) (used : ℕ) (kept : List Char)
    (hu : used = escapedLen kept) (hf : used ≤ budget) :
    ∃ head, before.reverse ++ kept = head ++ tailFrom budget before used kept ∧
      escapedLen (tailFrom budget before used kept) ≤ budget ∧
      (budget < escapedLen (before.reverse ++ kept) → head ≠ [] ∧
        (6 ≤ budget → tailFrom budget before used kept ≠ [])) := by
  induction before generalizing used kept with
  | nil =>
    refine ⟨[], rfl, hu ▸ hf, fun hl => ?_⟩
    rw [reverse_nil, nil_append, ← hu] at hl
    omega
  | cons c before ih =>
    rw [tailFrom, reverse_cons, append_assoc]
    split
    next hl =>
      have hk : 6 ≤ budget → kept ≠ [] := by
        rintro hsix rfl
        have hc := jsonEscapedLen_le c
        rw [hu, escapedLen_nil] at hl
        omega
      split
      · exact ⟨before.reverse ++ [c], by simp, hu ▸ hf, fun _ => ⟨by simp, hk⟩⟩
      · obtain ⟨dropped, hd, hne⟩ := afterNewline_spec kept
        refine ⟨before.reverse ++ ([c] ++ dropped), ?_, ?_,
          fun _ => ⟨by simp, fun hsix => hne (hk hsix)⟩⟩
        · rw [append_assoc, append_assoc, ← hd]
        · have hlen := congrArg escapedLen hd
          rw [escapedLen_append] at hlen
          omega
    next hs =>
      exact ih (used + jsonEscapedLen c) (c :: kept) (by rw [escapedLen_cons, hu, add_comm])
        (Nat.le_of_not_lt hs)

theorem tailWithin_spec (text : List Char) (budget : ℕ) :
    ∃ head, text = head ++ tailWithinJsonBytes text budget ∧
      escapedLen (tailWithinJsonBytes text budget) ≤ budget ∧
      (budget < escapedLen text → head ≠ [] ∧
        (6 ≤ budget → tailWithinJsonBytes text budget ≠ [])) := by
  have hs := tailFrom_spec text.reverse 0 [] rfl (zero_le budget)
  rwa [reverse_reverse, append_nil] at hs

end Cut

/-! ## One page -/

/-- What a page takes of lines, newest first. -/
inductive Takes (lines items : List (List Char)) (firstKept : ℕ) (taken : Taken) : Prop
  | whole (k : ℕ) (hk : k ≤ lines.length) (hitems : taken.items = items ++ lines.take k)
      (hkept : taken.firstKept = firstKept - k) (hresume : taken.resumeInLine = none)
      (hsome : lines ≠ [] → items = [] → 0 < k) : Takes lines items firstKept taken
  | inLine (head tail : List Char) (rest : List (List Char))
      (hlines : lines = (head ++ tail) :: rest)
      (hhead : head ≠ []) (htail : tail ≠ []) (hnone : items = []) (hitems : taken.items = [tail])
      (hresume : taken.resumeInLine = some (firstKept, byteLen head)) : Takes lines items
        firstKept taken

theorem take_spec (lines items : List (List Char)) (used firstKept : ℕ)
    (hus : used = linesSize items) (hfi : used ≤ outputTailMaxJsonBytes) :
    Takes lines items firstKept (take lines items used firstKept) ∧
      linesSize (take lines items used firstKept).items ≤ outputTailMaxJsonBytes := by
  induction lines generalizing items used firstKept with
  | nil =>
    refine ⟨.whole 0 (le_refl _) ?_ rfl rfl fun hne => absurd rfl hne, hus ▸ hfi⟩
    rw [take_zero, append_nil]
    rfl
  | cons line rest ih =>
    rw [take]
    split
    next hlo =>
      by_cases hit : items = []
      · -- the newest line is too long by itself
        subst hit
        obtain ⟨head, hli, hle, hne⟩ := tailWithin_spec line (outputTailMaxJsonBytes - 3)
        have hze : used = 0 := hus
        have hmax : 3 ≤ outputTailMaxJsonBytes := by decide
        have hlo : outputTailMaxJsonBytes - 3 < escapedLen line := by omega
        obtain ⟨hhe, hta⟩ := hne hlo
        have hta := hta (by decide)
        rw [if_pos rfl]
        refine ⟨.inLine head (tailWithinJsonBytes line (outputTailMaxJsonBytes - 3)) rest
          (by rw [← hli]) hhe hta
          rfl rfl ?_, ?_⟩
        · have hlen := congrArg byteLen hli
          rw [byteLen_append] at hlen
          simp only [hlen, Nat.add_sub_cancel]
        · simp only [linesSize, map_cons, map_nil, sum_cons, sum_nil]
          omega
      · rw [if_neg hit]
        refine ⟨.whole 0 (zero_le _) ?_ rfl rfl fun _ hnil => absurd hnil hit, hus ▸ hfi⟩
        rw [take_zero, append_nil]
    next hsh =>
      obtain ⟨htak, hsi⟩ := ih (items ++ [line]) (used + (escapedLen line + 3)) (firstKept - 1)
        (by simp [hus, linesSize]) (Nat.le_of_not_lt hsh)
      refine ⟨?_, hsi⟩
      cases htak with
      | whole k hk hit hke hre _ =>
        refine .whole (k + 1) (succ_le_succ hk) ?_ ?_ hre fun _ _ => succ_pos k
        · rw [hit, append_assoc]
          rfl
        · rw [hke, Nat.sub_sub, add_comm 1 k]
      | inLine _ _ _ _ _ _ hno _ _ => exact absurd hno (by simp)

/-! ## Growing texts -/

variable {P : List (List Char)}

section Growth

variable {L L' : List (List Char)} {p : List Char → Bool} {x : List Char}

/-- Lines that are the first ones of others, the last of them perhaps not to its end. -/
def Within (L P : List (List Char)) : Prop :=
  ∃ init last line rest, P = init ++ [last] ∧ L = init ++ line :: rest ∧ last <+: line

theorem Within.trans (h : Within L' L) (h' : Within L P) : Within L' P := by
  obtain ⟨init', last', line', rest', rfl, rfl, hl'⟩ := h
  obtain ⟨init, last, line, rest, rfl, hL, hl⟩ := h'
  cases rest using reverseRecOn with
  | nil =>
    obtain ⟨rfl, hli⟩ := append_inj' hL rfl
    cases hli
    exact ⟨init', last, line', rest', rfl, rfl, hl.trans hl'⟩
  | append_singleton rest x =>
    rw [← cons_append, ← append_assoc] at hL
    obtain ⟨rfl, -⟩ := append_inj' hL rfl
    exact ⟨init, last, line, rest ++ line' :: rest', rfl, by simp, hl⟩

theorem Within.take_eq (h : Within L P) {k : ℕ} (hk : k < P.length) : L.take k = P.take k := by
  obtain ⟨init, last, line, rest, rfl, rfl, -⟩ := h
  rw [length_append, length_singleton] at hk
  rw [take_append_of_le_length (by omega), take_append_of_le_length (by omega)]

theorem rdropWhile_keep (hx : p x = false) (init rest : List (List Char)) :
    (init ++ x :: rest).rdropWhile p = init ++ x :: rest.rdropWhile p := by
  induction rest using reverseRecOn with
  | nil => simp [hx]
  | append_singleton rest y ih =>
    rw [← cons_append, ← append_assoc, rdropWhile_concat, rdropWhile_concat]
    split
    · exact ih
    · simp

theorem rdropWhile_last {l init : List (List Char)} (h : l.rdropWhile p = init ++ [x]) :
    p x = false := by
  have hl := rdropWhile_last_not p l
  rw [h] at hl
  simpa using hl (by simp)

theorem outputLines_append (text more : List Char) :
    outputLines text = [] ∨ Within (outputLines (text ++ more)) (outputLines text) := by
  obtain ⟨init, last, m, ms, ht, -, hbo⟩ := splitOn_append '\n' text more
  rcases eq_nil_or_concat (outputLines text) with hnil | ⟨kept, x, hk⟩
  · exact Or.inl hnil
  rw [concat_eq_append] at hk
  have hx : isBlank x = false := rdropWhile_last hk
  obtain ⟨blanks, hb⟩ := rdropWhile_prefix isBlank (l := text.splitOn '\n')
  rw [← outputLines, hk, ht, append_assoc, singleton_append] at hb
  right
  rw [hk, outputLines, hbo]
  cases blanks using reverseRecOn with
  | nil =>
    -- the last line goes on
    obtain ⟨rfl, hla⟩ := append_inj' hb rfl
    obtain rfl : x = last := singleton_inj.mp hla
    have hl : isBlank (x ++ m) = false := by
      rw [isBlank, all_append, ← isBlank, hx, Bool.false_and]
    rw [rdropWhile_keep hl]
    exact ⟨kept, x, x ++ m, _, rfl, rfl, prefix_append _ _⟩
  | append_singleton blanks b =>
    rw [← cons_append, ← append_assoc] at hb
    obtain ⟨rfl, -⟩ := append_inj' hb rfl
    rw [append_assoc, cons_append, rdropWhile_keep hx]
    exact ⟨kept, x, x, _, rfl, rfl, prefix_rfl⟩

end Growth

/-! ## The walk -/

section Walk

variable {codec : TokenCodec} {L : List (List Char)} {limit : Option ℤ} {token : Option String}
  {len b : ℕ}

inductive Pending (codec : TokenCodec) (L : List (List Char)) :
    Option String → List (List Char) → Prop
  | first : Pending codec L none L
  | lines {P : List (List Char)} (hP : P = L.take P.length) :
      Pending codec L (some (codec.encodeToken (.backward P.length))) P
  | inLine {init rest : List (List Char)} {last line : List Char} (hL : L = init ++ line :: rest)
      (hlast : last <+: line) :
      Pending codec L (some (codec.encodeToken ⟨some (init.length + 1), none, some (byteLen last)⟩))
        (init ++ [last])

def windowOf (limit : Option ℤ) (P : List (List Char)) : List (List Char) :=
  P.drop (P.length - clampLimit limit)

theorem extract_of_take (hP : P = L.take P.length) (start : ℕ) :
    L.extract start P.length = P.drop start := by
  rw [extract_eq_take_drop, ← drop_take, ← hP]

def stopping (codec : TokenCodec) (limit : Option ℤ) (stop : ℕ) : PageWindow :=
  ⟨stop - clampLimit limit, stop, remintBackwardToken codec (stop - clampLimit limit)⟩

theorem pageWindow_token {token : String} {cursor : Cursor}
    (hd : codec.decodeToken token = some cursor) (hb : cursor.b = some b) (hle : b ≤ len) :
    pageWindow codec len limit (some token) = stopping codec limit b := by
  simp only [pageWindow, bind_some, backwardPageBoundary, hd, hb, min_eq_left hle]
  rfl

theorem textPageWindow_lines (hle : b ≤ len) :
    textPageWindow codec len limit (some (codec.encodeToken (.backward b))) =
      (stopping codec limit b, none) := by
  have hd := codec.decode_encode (.backward b)
  rw [textPageWindow, pageWindow_token hd rfl hle, bind_some, hd]
  rfl

theorem textPageWindow_inLine {c : ℕ} (hpos : 0 < b) (hle : b ≤ len) :
    textPageWindow codec len limit (some (codec.encodeToken ⟨some b, none, some c⟩)) =
      (stopping codec limit b, some c) := by
  have hd := codec.decode_encode ⟨some b, none, some c⟩
  have hl := clampLimit_pos limit
  have hles : b = (stopping codec limit b).stop ∧
      (stopping codec limit b).start < (stopping codec limit b).stop :=
    ⟨rfl, sub_lt hpos hl⟩
  rw [textPageWindow, pageWindow_token hd rfl hle, bind_some, hd]
  simp only [bind_eq_bind, bind_some, if_pos hles]

theorem paginate_pending (h : Pending codec (outputLines text) token P) (limit : Option ℤ) :
    paginateTextLines codec text limit token =
      boundTextPage codec (windowOf limit P) (P.length - clampLimit limit)
        (remintBackwardToken codec (P.length - clampLimit limit)) := by
  have hpos := clampLimit_pos limit
  rw [paginateTextLines]
  generalize outputLines text = L at h
  cases h with
  | first =>
    have hw : textPageWindow codec P.length limit none = (stopping codec limit P.length, none) :=
      rfl
    have hall : P = P.take P.length := take_length.symm
    simp only [hw, stopping, cutLast, extract_of_take hall]
    rfl
  | lines hP =>
    have hle : P.length ≤ L.length := by
      have hlen := congrArg length hP
      rw [length_take] at hlen
      omega
    simp only [textPageWindow_lines hle, stopping, cutLast, extract_of_take hP]
    rfl
  | @inLine init rest last line hL hl =>
    subst hL
    obtain ⟨more, rfl⟩ := hl
    have hw : (init ++ (last ++ more) :: rest).extract (init.length + 1 - clampLimit limit)
        (init.length + 1) = init.drop (init.length + 1 - clampLimit limit) ++ [last ++ more] := by
      rw [extract_eq_take_drop, ← drop_take, take_append, take_of_length_le (le_succ _),
        Nat.add_sub_cancel_left, take_one, head?_cons, toList_some,
        drop_append_of_le_length (by omega)]
    rw [textPageWindow_inLine (succ_pos _) (by simp)]
    simp only [stopping, hw, cutLast, getLast?_append, getLast?_singleton, some_or,
      dropLast_concat, floorPart_append, length_append, length_singleton, windowOf,
      drop_append_of_le_length (show init.length + 1 - clampLimit limit ≤ init.length by omega)]

theorem within_of_take (hne : P ≠ []) (hP : P = L.take P.length) : Within L P := by
  obtain ⟨init, last, hin⟩ := (eq_nil_or_concat P).resolve_left hne
  rw [concat_eq_append] at hin
  refine ⟨init, last, last, L.drop P.length, hin, ?_, prefix_rfl⟩
  have hL := take_append_drop P.length L
  rw [← hP] at hL
  rw [← hL, hin]
  simp

theorem Within.of_pending (h : Pending codec L token P) (hne : P ≠ []) : Within L P := by
  cases h with
  | first => exact within_of_take hne take_length.symm
  | lines hP => exact within_of_take hne hP
  | inLine hL hl => exact ⟨_, _, _, _, rfl, hL, hl⟩

/-- What a page serves of the lines that are left. -/
inductive Serves (codec : TokenCodec) (P : List (List Char)) (page : TextPage) : Prop
  | lines (k : ℕ) (hk : k ≤ P.length) (hpos : P ≠ [] →
      0 < k) (hitems : page.items = (P.drop (P.length - k)).reverse)
      (hnext : page.nextToken = remintBackwardToken codec (P.length - k))
        (hline : page.lineContinues = false) :
      Serves codec P page
  | inLine (init : List (List Char)) (head tail : List Char) (hP : P = init ++ [head ++ tail])
      (hhead : head ≠ []) (htail : tail ≠ []) (hitems : page.items = [tail])
      (hnext : page.nextToken =
        some (codec.encodeToken ⟨some (init.length + 1), none, some (byteLen head)⟩))
      (hline : page.lineContinues = true) : Serves codec P page

theorem bound_serves (codec : TokenCodec) (limit : Option ℤ) (P : List (List Char)) :
    Serves codec P (boundTextPage codec (windowOf limit P) (P.length - clampLimit limit)
      (remintBackwardToken codec (P.length - clampLimit limit))) ∧
    (boundTextPage codec (windowOf limit P) (P.length - clampLimit limit)
      (remintBackwardToken codec (P.length - clampLimit limit))).size ≤ outputTailMaxJsonBytes := by
  have hlim := clampLimit_pos limit
  generalize hst : P.length - clampLimit limit = start
  have hwi : windowOf limit P = P.drop start := by
    rw [windowOf, hst]
  have hle : (P.drop start).length = P.length - start := length_drop
  have hend : start + (P.drop start).length = P.length := by omega
  obtain ⟨hta, hsi⟩ := take_spec (P.drop start).reverse [] 0 P.length rfl (zero_le _)
  rw [hwi, boundTextPage, hend]
  refine ⟨?_, hsi⟩
  generalize take (P.drop start).reverse [] 0 P.length = taken at hta
  cases hta with
  | whole k hk hit hke hre hso =>
    rw [length_reverse] at hk
    refine .lines k (by omega) (fun hne => hso ?_ rfl) ?_ ?_ ?_
    · rw [ne_eq, reverse_eq_nil_iff, ← length_eq_zero_iff, hle]
      have hpos := length_pos_of_ne_nil hne
      omega
    · have hin : start + (P.length - start - k) = P.length - k := by omega
      rw [hit, nil_append, take_reverse, drop_drop, hle, hin]
    · simp only [hre, hke]
      split
      · rfl
      next hsto =>
        have hall : P.length - k = start := by omega
        rw [hall]
    · simp only [hre]
      rfl
  | inLine head tail rest hli hhe htai _ hit hre =>
    have hrev := congrArg reverse hli
    rw [reverse_reverse, reverse_cons] at hrev
    have hP : P = (P.take start ++ rest.reverse) ++ [head ++ tail] := by
      rw [append_assoc, ← hrev, take_append_drop]
    refine .inLine (P.take start ++ rest.reverse) head tail hP hhe htai hit ?_ ?_
    · have hlen := congrArg length hP
      rw [length_append, length_singleton] at hlen
      simp only [hre, hlen]
    · simp only [hre]
      rfl

def weight (P : List (List Char)) : ℕ := (P.map fun line => line.length + 1).sum

theorem weight_append (P P' : List (List Char)) : weight (P ++ P') = weight P + weight P' := by
  simp [weight]

theorem weight_singleton (line : List Char) : weight [line] = line.length + 1 := by
  simp [weight]

theorem weight_pos (h : P ≠ []) : 0 < weight P := by
  cases P with
  | nil => exact absurd rfl h
  | cons line P =>
    simp only [weight, map_cons, sum_cons]
    omega

theorem weight_splitOn (text : List Char) : weight (text.splitOn '\n') = text.length + 1 := by
  induction text with
  | nil => rfl
  | cons c text ih =>
    rw [splitOn_cons_eq_if_modifyHead]
    split
    · have hc : weight ([] :: text.splitOn '\n') = 1 + weight (text.splitOn '\n') := by
        simp [weight]
      rw [hc, ih, length_cons]
      omega
    · obtain ⟨l, ls, hls⟩ := exists_cons_of_ne_nil (splitOn_ne_nil '\n' text)
      rw [hls] at ih ⊢
      simp only [modifyHead_cons, weight, map_cons, sum_cons, length_cons] at ih ⊢
      omega

/-- The lines that pages serve, newest first, within the budget. -/
def Spells (P : List (List Char)) (pages : List TextPage) : Prop :=
  joinPages pages = P.reverse ∧ ∀ page ∈ pages, page.size ≤ outputTailMaxJsonBytes

theorem Reads.within (reads : Reads) (n : ℕ) (h : Within (outputLines (reads.text n)) P) :
    Within (outputLines (reads.text (n + 1))) P := by
  obtain ⟨more, hm⟩ := reads.grows n
  have hg := outputLines_append (reads.text n) more
  rw [hm] at hg
  rcases hg with hnil | hg
  · obtain ⟨init, last, line, rest, hP, hL, -⟩ := h
    rw [hnil] at hL
    simp at hL
  · exact hg.trans h

theorem page_step (codec : TokenCodec) (reads : Reads) (n : ℕ) (token : Option String)
    (P : List (List Char)) (h : Pending codec (outputLines (reads.text n)) token P) :
    ∃ page next, servePage codec reads n token = some (page, next) ∧
      (next = none → Spells P [page]) ∧ ∀ token', next = some token' →
        ∃ P', Pending codec (outputLines (reads.text (n + 1))) token' P' ∧
        weight P' < weight P ∧ ∀ rest, Spells P' rest → Spells P (page :: rest) := by
  have hpa := paginate_pending h (reads.limit n)
  obtain ⟨hse, hsi⟩ := bound_serves codec (reads.limit n) P
  rw [← hpa] at hse hsi
  refine ⟨_, _, rfl, ?_⟩
  generalize paginateTextLines codec (reads.text n) (reads.limit n) token = page at hse hsi
  cases hse with
  | lines k hk hpos hit hnex hli =>
    have hjo : P.reverse = page.items ++ (P.take (P.length - k)).reverse := by
      rw [hit, ← reverse_append, take_append_drop]
    rw [hnex]
    refine ⟨fun hno => ⟨?_, by simpa using hsi⟩, fun token' hto => ?_⟩
    · have hze : P.length - k = 0 := by
        rw [map_eq_none_iff] at hno
        exact remintBackwardToken_eq_none hno
      rw [hze, take_zero, reverse_nil, append_nil] at hjo
      simp [joinPages, hli, hjo]
    · obtain ⟨text, hte, rfl⟩ := map_eq_some_iff.mp hto
      obtain ⟨rfl, hle⟩ := remintBackwardToken_eq_some hte
      have hne : P ≠ [] := by
        rintro rfl
        exact not_lt_zero _ (lt_of_lt_of_le hle (sub_le _ _))
      have hk := hpos hne
      have hlen : (P.take (P.length - k)).length = P.length - k := by
        rw [length_take]
        omega
      have hpe : P.take (P.length - k) =
          (outputLines (reads.text (n + 1))).take (P.take (P.length - k)).length := by
        rw [hlen]
        exact ((reads.within n (.of_pending h hne)).take_eq (by omega)).symm
      refine ⟨P.take (P.length - k), ?_, ?_, fun rest hre => ⟨?_, forall_mem_cons.mpr ⟨hsi, hre.2⟩⟩⟩
      · have hlin : Pending codec _ _ _ := .lines hpe
        rwa [hlen] at hlin
      · have hsum := weight_append (P.take (P.length - k)) (P.drop (P.length - k))
        rw [take_append_drop] at hsum
        have hdr : 0 < weight (P.drop (P.length - k)) := weight_pos (by
          rw [ne_eq, drop_eq_nil_iff]
          omega)
        omega
      · simp [joinPages, hli, hre.1, hjo]
  | inLine init head tail hP hhe hta hit hnex hli =>
    subst hP
    rw [hnex]
    refine ⟨fun hno => (some_ne_none _ hno).elim, fun token' hto => ?_⟩
    cases hto
    obtain ⟨init', last, line, rest, hP, hL, hpr⟩ := reads.within n (.of_pending h (by simp))
    obtain ⟨rfl, hla⟩ := append_inj' hP rfl
    obtain rfl : head ++ tail = last := singleton_inj.mp hla
    refine ⟨init ++ [head], .inLine hL ((prefix_append head tail).trans hpr), ?_,
      fun more hmo => ⟨?_, forall_mem_cons.mpr ⟨hsi, hmo.2⟩⟩⟩
    · have hpos := length_pos_of_ne_nil hta
      rw [weight_append, weight_append, weight_singleton, weight_singleton, length_append]
      omega
    · rw [joinPages, if_pos hli, hmo.1, hit]
      simp [glue]

theorem text_pages_rebuild (codec : TokenCodec) (reads : Reads) :
    ∃ pages, follow (servePage codec reads) ((reads.text 0).length + 2) 0 none = some pages ∧
      joinPages pages = (outputLines (reads.text 0)).reverse ∧
      ∀ page ∈ pages, page.size ≤ outputTailMaxJsonBytes := by
  refine follow_ends_with (I := fun n token P => Pending codec (outputLines (reads.text n)) token P)
    (Q := fun _ P pages => Spells P pages) weight (page_step codec reads) .first ?_
  obtain ⟨blanks, hb⟩ := rdropWhile_prefix isBlank (l := (reads.text 0).splitOn '\n')
  have hsum := weight_append (outputLines (reads.text 0)) blanks
  rw [outputLines, hb, weight_splitOn] at hsum
  rw [outputLines]
  omega

/-- An output of two lines, to which a character is added at every call. It is read line by line. -/
def growing : Reads where
  text n := "one\ntwo".toList ++ replicate n '.'
  limit _ := some 1
  grows _ := (prefix_append_right_inj _).mpr (replicate_succ' ▸ prefix_append _ _)

theorem text_pages_rebuild_growing :
    ∃ pages, follow (servePage default growing) 9 0 none = some pages ∧
      joinPages pages = ["two".toList, "one".toList] ∧
      ∀ page ∈ pages, page.size ≤ outputTailMaxJsonBytes :=
  text_pages_rebuild default growing

end Walk

end Intentd.TextPages
