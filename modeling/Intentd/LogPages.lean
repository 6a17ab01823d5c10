import Intentd.LossyUtf8
import Intentd.ScriptLog
import Intentd.TextPages

/-!
# Pages of a log file

A page of a log is read from the file in two passes, and no pass holds more than a line. The
first counts the lines up to the last that is not blank, with a probe that looks at the bytes
of a line as they come. The second copies the lines of the window. A read returns any part of
the file that comes next, so a line or a character may be split between reads.

The last lines of a log are found from its end, a chunk of the file at a time.
-/
namespace Intentd.LogPages
open LossyUtf8 ScriptLog TextPages PageWindows ByteTexts List Nat

/-! ## The probe for blank lines -/

structure BlankProbe where
  nonBlank : Bool
  pending : List UInt8
  want : ℕ

namespace BlankProbe

def fresh : BlankProbe := ⟨false, [], 0⟩

variable (p : BlankProbe)

def start (lead : UInt8) (want : ℕ) : BlankProbe := { p with pending := [lead], want := want }

def spaceBytes (bytes : List UInt8) : Bool :=
  ((strict bytes).bind head?).any UnicodeText.isWhitespace

def feedByte (b : UInt8) : BlankProbe :=
  if p.nonBlank then p
  else if p.want = 0 then
    if b.toNat ∈ [0x09, 0x0B, 0x0C, 0x0D, 0x20] then p
    else if 0xC2 ≤ b.toNat ∧ b.toNat ≤ 0xDF then p.start b 2
    else if 0xE0 ≤ b.toNat ∧ b.toNat ≤ 0xEF then p.start b 3
    else if 0xF0 ≤ b.toNat ∧ b.toNat ≤ 0xF4 then p.start b 4
    else { p with nonBlank := true }
  else if (p.pending ++ [b]).length = p.want then ⟨!spaceBytes (p.pending ++ [b]), [], 0⟩
  else { p with pending := p.pending ++ [b] }

def feed (bytes : List UInt8) : BlankProbe := bytes.foldl feedByte p

/-- Whether the line that ends was blank. The probe is fresh after it. -/
def finish : Bool := !p.nonBlank && p.want = 0

end BlankProbe

/-! ## The passes over a file -/

inductive LineEvent where
  | bytes (piece : List UInt8)
  | ended

/-- What the reads of a file return, until the end of the file. -/
structure Chunks (content : List UInt8) where
  chunks : List (List UInt8)
  flatten_eq : chunks.flatten = content
  nonempty : ∀ chunk ∈ chunks, chunk ≠ []

/-- The pieces that a part of a line is reported in. -/
def piecesOf (part : List UInt8) : List (List UInt8) := if part = [] then [] else [part]

/-- The events of a chunk that is split at its newlines, and the line after it. -/
def chunkEvents : ℕ → List (List UInt8) → List (ℕ × LineEvent) × ℕ
  | index, [] => ([], index)
  | index, [rest] => ((piecesOf rest).map fun piece => (index, .bytes piece), index)
  | index, part :: next :: parts =>
    ((piecesOf part).map (fun piece => (index, .bytes piece)) ++
      (index, .ended) :: (chunkEvents (index + 1) (next :: parts)).1,
        (chunkEvents (index + 1) (next :: parts)).2)

def scanEvents : ℕ → List (List UInt8) → List (ℕ × LineEvent)
  | index, [] => [(index, .ended)]
  | index, chunk :: chunks =>
    (chunkEvents index (chunk.splitOn newline)).1 ++
      scanEvents (chunkEvents index (chunk.splitOn newline)).2 chunks

/-- Give the events to a callback until it returns false. -/
def deliver {σ : Type} (f : σ → ℕ → LineEvent → σ × Bool) : List (ℕ × LineEvent) → σ → σ
  | [], s => s
  | event :: events, s =>
    if (f s event.1 event.2).2 then deliver f events (f s event.1 event.2).1
    else (f s event.1 event.2).1

def scanLines {σ : Type} (chunks : List (List UInt8)) (f : σ → ℕ → LineEvent → σ × Bool) (s : σ) :
    σ :=
  deliver f (scanEvents 0 chunks) s

structure Counted where
  probe : BlankProbe
  keptLen : ℕ

def countLine (s : Counted) (index : ℕ) : LineEvent → Counted × Bool
  | .bytes piece => ({ s with probe := s.probe.feed piece }, true)
  | .ended => (⟨.fresh, if s.probe.finish then s.keptLen else index + 1⟩, true)

structure Copied where
  line : List UInt8
  items : List (List Char)
  peak : ℕ

def copyLine (win : PageWindow) (s : Copied) (index : ℕ) (event : LineEvent) : Copied × Bool :=
  if index < win.start then (s, true)
  else
    match event with
    | .bytes piece => ({ s with line := s.line ++ piece }, true)
    | .ended => (⟨[], s.items ++ [lossy s.line], max s.peak s.line.length⟩, index + 1 < win.stop)

def paginateFile (codec : TokenCodec) (counting copying : List (List UInt8)) (limit : Option ℤ)
    (token : Option String) : TextPage × ℕ :=
  let counted := scanLines counting countLine ⟨.fresh, 0⟩
  let (win, cut) := textPageWindow codec counted.keptLen limit token
  let copied :=
    if win.start < win.stop then scanLines copying (copyLine win) ⟨[], [], 0⟩ else ⟨[], [], 0⟩
  (boundTextPage codec (cutLast cut copied.items) win.start win.nextToken, copied.peak)

/-! ## The last lines -/

def scanChunk : ℕ := 64 * 1024

/-- The bytes of a chunk from its last on. The error is where the tail starts. -/
def scanBack (file : List UInt8) (n pos : ℕ) : ℕ → ℕ → Except ℕ ℕ
  | 0, newlines => .ok newlines
  | i + 1, newlines =>
    if file[pos + i]? = some newline then
      if newlines + 1 = n then .error (pos + i + 1) else scanBack file n pos i (newlines + 1)
    else scanBack file n pos i newlines

def tailCut (file : List UInt8) (n pos newlines : ℕ) : ℕ :=
  if pos = 0 then 0
  else
    match scanBack file n (pos - min pos scanChunk) (min pos scanChunk) newlines with
    | .error cut => cut
    | .ok newlines => tailCut file n (pos - min pos scanChunk) newlines
termination_by pos
decreasing_by
  have hpos : 0 < scanChunk := by decide
  omega

def tailLines (file : List UInt8) (n : ℕ) : List Char :=
  let cut := tailCut file n file.length 0
  lossy ((file.drop cut).take (file.length - cut))

/-! ## What the probe finds -/

namespace BlankProbe

variable (p : BlankProbe)

theorem feed_append (bytes more : List UInt8) : p.feed (bytes ++ more) = (p.feed bytes).feed more :=
  foldl_append

theorem feed_cons (b : UInt8) (bytes : List UInt8) :
    p.feed (b :: bytes) = (p.feedByte b).feed bytes :=
  rfl

theorem feed_nonBlank (bytes : List UInt8) (h : p.nonBlank = true) : p.feed bytes = p := by
  induction bytes with
  | nil => rfl
  | cons b bytes ih => rw [feed_cons, feedByte, if_pos h, ih]

theorem finish_nonBlank (bytes : List UInt8) (h : p.nonBlank = true) :
    (p.feed bytes).finish = false := by
  rw [feed_nonBlank p bytes h, finish, h]
  rfl

variable {want : ℕ} {lead : UInt8}

theorem feed_pending (pending next : List UInt8) (h : (pending ++ next).length < want) :
    feed ⟨false, pending, want⟩ next = ⟨false, pending ++ next, want⟩ := by
  induction next generalizing pending with
  | nil => rw [append_nil]; rfl
  | cons b next ih =>
    have hs : feedByte ⟨false, pending, want⟩ b = ⟨false, pending ++ [b], want⟩ := by
      rw [length_append, length_cons] at h
      rw [feedByte, if_neg Bool.false_ne_true, if_neg (by dsimp only; omega), if_neg]
      rw [length_append, length_singleton]
      dsimp only
      omega
    rw [feed_cons, hs, ih (pending ++ [b]) (by rwa [append_assoc]), append_assoc]
    rfl

theorem feed_complete (pending next : List UInt8) (hn : next ≠ [])
    (h : (pending ++ next).length = want) :
    feed ⟨false, pending, want⟩ next = ⟨!spaceBytes (pending ++ next), [], 0⟩ := by
  obtain ⟨init, last, rfl⟩ := (eq_nil_or_concat next).resolve_left hn
  rw [concat_eq_append, ← append_assoc] at h ⊢
  have hlen : (pending ++ init).length + 1 = want := by
    rwa [length_append, length_singleton] at h
  rw [feed_append, feed_pending pending init (by omega), feed_cons, feedByte,
    if_neg Bool.false_ne_true, if_neg (by dsimp only; omega), if_pos h]
  rfl

theorem feedByte_fresh (b : UInt8) : feedByte fresh b =
      if b.toNat ∈ [0x09, 0x0B, 0x0C, 0x0D, 0x20] then fresh
      else if 0xC2 ≤ b.toNat ∧ b.toNat ≤ 0xDF then ⟨false, [b], 2⟩
      else if 0xE0 ≤ b.toNat ∧ b.toNat ≤ 0xEF then ⟨false, [b], 3⟩
      else if 0xF0 ≤ b.toNat ∧ b.toNat ≤ 0xF4 then ⟨false, [b], 4⟩
      else ⟨true, [], 0⟩ := rfl

theorem feedByte_lead (h : wants lead = some (want + 1)) :
    feedByte fresh lead = ⟨false, [lead], want + 2⟩ := by
  have hs : lead.toNat ∉ [0x09, 0x0B, 0x0C, 0x0D, 0x20] := by
    simp only [mem_cons, not_mem_nil, or_false]
    rcases wants_cases h with h' | h' | h' | h' <;> omega
  rw [feedByte_fresh, if_neg hs]
  rcases wants_cases h with ⟨hw, hl⟩ | ⟨hw, hl⟩ | ⟨hw, hl⟩ | ⟨hw, hl⟩
  · omega
  · obtain rfl : want = 0 := by omega
    rw [if_pos hl]
  · obtain rfl : want = 1 := by omega
    rw [if_neg (by omega), if_pos hl]
  · obtain rfl : want = 2 := by omega
    rw [if_neg (by omega), if_neg (by omega), if_pos hl]

theorem feedByte_invalid (h : wants lead = none) : (feedByte fresh lead).nonBlank = true := by
  simp only [wants] at h
  split_ifs at h with hone htwo ht hf
  have hs : lead.toNat ∉ [0x09, 0x0B, 0x0C, 0x0D, 0x20] := by
    simp only [mem_cons, not_mem_nil, or_false]
    omega
  rw [feedByte_fresh, if_neg hs, if_neg htwo, if_neg ht, if_neg hf]

theorem isWhitespace_ascii : ∀ n < 0x80, n ≠ 10 →
    UnicodeText.isWhitespace (Char.ofNat n) = decide (n ∈ [0x09, 0x0B, 0x0C, 0x0D, 0x20]) := by
  decide

theorem replacement_not_blank (chars : List Char) : isBlank (replacement :: chars) = false := rfl

theorem isBlank_cons (c : Char) (line : List Char) :
    isBlank (c :: line) = (UnicodeText.isWhitespace c && isBlank line) :=
  rfl

theorem finish_feed (line : List UInt8) (h : newline ∉ line) :
    (feed fresh line).finish = isBlank (lossy line) := by
  induction hlen : line.length using Nat.strongRecOn generalizing line with
  | ind n ih =>
  subst hlen
  cases line with
  | nil => rfl
  | cons lead rest =>
  rw [feed_cons]
  rw [mem_cons, not_or] at h
  cases hw : wants lead with
  | none =>
    obtain ⟨chars, hl⟩ := first_invalid rest hw
    rw [hl, finish_nonBlank _ _ (feedByte_invalid hw), replacement_not_blank]
  | some want =>
  cases want with
  | zero =>
    have ha : lead.toNat < 0x80 := by
      rcases wants_cases hw with h' | h' | h' | h' <;> omega
    have hne : lead.toNat ≠ 10 := fun heq => h.1 (UInt8.toNat_inj.mp heq).symm
    rw [lossy_ascii rest ha, isBlank_cons, isWhitespace_ascii _ ha hne, feedByte_fresh]
    by_cases hs : lead.toNat ∈ [0x09, 0x0B, 0x0C, 0x0D, 0x20]
    · rw [if_pos hs, ih _ (lt_succ_self _) rest h.2 rfl, decide_eq_true hs, Bool.true_and]
    · rw [if_neg hs, if_neg (by omega), if_neg (by omega), if_neg (by omega), decide_eq_false hs,
        Bool.false_and, finish_nonBlank _ _ rfl]
  | succ want =>
  rw [feedByte_lead hw]
  by_cases hsh : rest.length < want + 1
  · -- the line ends inside the sequence
    obtain ⟨chars, hl⟩ := first_short hw hsh
    rw [hl, replacement_not_blank, feed_pending [lead] rest (by simp; omega)]
    rfl
  · obtain ⟨next, more, rfl, hn⟩ : ∃ next more, rest = next ++ more ∧ next.length = want + 1 :=
      ⟨rest.take (want + 1), rest.drop (want + 1),
        (take_append_drop _ _).symm, by rw [length_take]; omega⟩
    have hfed : feed ⟨false, [lead], want + 2⟩ next = ⟨!spaceBytes (lead :: next), [], 0⟩ :=
      feed_complete [lead] next (by rintro rfl; cases hn) (by simp [hn])
    rw [mem_append, not_or] at h
    rw [feed_append, hfed]
    rcases first_exact more (hn ▸ hw) with ⟨c, hst, hl⟩ | ⟨hst, chars, hl⟩
    · rw [hl, isBlank_cons, spaceBytes, hst]
      cases hs : UnicodeText.isWhitespace c with
      | true =>
        have hlt : more.length < (lead :: (next ++ more)).length := by
          rw [length_cons, length_append]
          omega
        rw [Bool.true_and, ← ih _ hlt more h.2.2 rfl]
        simp [hs, fresh]
      | false => rw [Bool.false_and, finish_nonBlank _ _ (by simp [hs])]
    · rw [hl, replacement_not_blank, spaceBytes, hst, finish_nonBlank _ _ rfl]

end BlankProbe

/-! ## What the passes see -/

variable {index : ℕ} {content : List UInt8}

def lineEvents : ℕ → List (List (List UInt8)) → List (ℕ × LineEvent)
  | _, [] => []
  | index, pieces :: lines =>
    pieces.map (fun piece => (index, .bytes piece)) ++ (index, .ended) ::
      lineEvents (index + 1) lines

theorem flatten_piecesOf (part : List UInt8) : (piecesOf part).flatten = part := by
  rw [piecesOf]
  split
  next h => rw [h]; rfl
  next => simp

theorem lineEvents_append (index : ℕ) (lines more : List (List (List UInt8))) :
    lineEvents index (lines ++ more) = lineEvents index lines ++
      lineEvents (index + lines.length) more := by
  induction lines generalizing index with
  | nil => rfl
  | cons pieces lines ih =>
    rw [cons_append, lineEvents, ih, lineEvents, length_cons, add_right_comm index 1,
      add_assoc index]
    simp

theorem chunkEvents_eq (index : ℕ) (init : List (List UInt8)) (last : List UInt8) :
    chunkEvents index (init ++ [last]) =
      (lineEvents index (init.map piecesOf) ++ (piecesOf last).map (fun piece =>
        (index + init.length, .bytes piece)), index + init.length) := by
  induction init generalizing index with
  | nil => rfl
  | cons part init ih =>
    obtain ⟨next, parts, hp⟩ := exists_cons_of_ne_nil (concat_ne_nil last init)
    have hn := ih (index + 1)
    rw [hp] at hn
    rw [cons_append, hp, chunkEvents, hn, map_cons, lineEvents, length_cons,
      add_right_comm index 1, add_assoc index]
    simp

theorem scanEvents_lines (index : ℕ) (chunks : List (List UInt8)) :
    ∃ lines, scanEvents index chunks = lineEvents index lines ∧
      lines.map flatten = chunks.flatten.splitOn newline := by
  induction chunks generalizing index with
  | nil => exact ⟨[[]], rfl, by simp⟩
  | cons chunk chunks ih =>
    obtain ⟨init, last, m, ms, hc, hr, hb⟩ := splitOn_append newline chunk chunks.flatten
    obtain ⟨lines, he, hl⟩ := ih (index + init.length)
    rw [hr] at hl
    obtain ⟨pieces, lines, rfl⟩ := exists_cons_of_ne_nil (show lines ≠ [] by rintro rfl; cases hl)
    obtain ⟨hp, hl⟩ := List.cons.inj hl
    refine ⟨init.map piecesOf ++ (piecesOf last ++ pieces) :: lines, ?_, ?_⟩
    · rw [scanEvents, hc, chunkEvents_eq, he, lineEvents_append, length_map, lineEvents, lineEvents]
      simp
    · rw [flatten_cons, hb, map_append, map_cons, flatten_append, flatten_piecesOf, hp, hl, map_map]
      congr 1
      exact (map_congr_left fun part _ => flatten_piecesOf part).trans (map_id init)

theorem deliver_append {σ : Type} {f : σ → ℕ → LineEvent → σ × Bool}
    (hf : ∀ s index event, (f s index event).2 = true)
    (events more : List (ℕ × LineEvent)) (s : σ) :
    deliver f (events ++ more) s = deliver f more (deliver f events s) := by
  induction events generalizing s with
  | nil => rfl
  | cons event events ih =>
    rw [cons_append, deliver, deliver, if_pos (hf _ _ _), if_pos (hf _ _ _), ih]

theorem countLine_goes (s : Counted) (index : ℕ) (event : LineEvent) :
    (countLine s index event).2 = true := by
  cases event <;> rfl

theorem count_pieces (index : ℕ) (pieces : List (List UInt8)) (s : Counted) :
    deliver countLine (pieces.map fun piece => (index, .bytes piece)) s =
      { s with probe := s.probe.feed pieces.flatten } := by
  induction pieces generalizing s with
  | nil => rfl
  | cons piece pieces ih =>
    rw [map_cons, deliver, if_pos (countLine_goes _ _ _), ih, flatten_cons, BlankProbe.feed_append]
    rfl

def keptLines (lines : List (List UInt8)) : List (List UInt8) := lines.rdropWhile fun line =>
    isBlank (lossy line)

theorem count_lines (lines : List (List (List UInt8)))
    (h : ∀ line ∈ lines.map flatten, newline ∉ line) :
    deliver countLine (lineEvents 0 lines) ⟨.fresh, 0⟩ =
      ⟨.fresh, (keptLines (lines.map flatten)).length⟩ := by
  induction lines using reverseRecOn with
  | nil => rfl
  | append_singleton lines pieces ih =>
    rw [map_append, forall_mem_append] at h
    have hf := BlankProbe.finish_feed pieces.flatten (h.2 _ (mem_singleton.mpr rfl))
    rw [lineEvents_append, deliver_append countLine_goes, ih h.1, lineEvents,
      deliver_append countLine_goes, count_pieces, zero_add]
    simp only [deliver, countLine, if_true, lineEvents, hf, map_append, keptLines,
      map_cons, map_nil, rdropWhile_concat]
    split
    · rfl
    · simp

section Copy

variable {win : PageWindow}

theorem copy_skip (h : index < win.start) (pieces : List (List UInt8)) (more : List (ℕ × LineEvent))
    (s : Copied) :
    deliver (copyLine win) (pieces.map (fun piece => (index, .bytes piece)) ++
      (index, .ended) :: more) s = deliver (copyLine win) more s := by
  induction pieces with
  | nil =>
    rw [map_nil, nil_append, deliver, copyLine, if_pos h, if_pos rfl]
  | cons piece pieces ih =>
    rw [map_cons, cons_append, deliver, copyLine, if_pos h, if_pos rfl, ih]

theorem copy_pieces (h : ¬index < win.start) (pieces : List (List UInt8))
    (more : List (ℕ × LineEvent)) (s : Copied) :
      deliver (copyLine win) (pieces.map (fun piece => (index, .bytes piece)) ++ more) s =
      deliver (copyLine win) more { s with line := s.line ++ pieces.flatten } := by
  induction pieces generalizing s with
  | nil => rw [map_nil, nil_append, flatten_nil, append_nil]
  | cons piece pieces ih =>
    rw [map_cons, cons_append, deliver, copyLine, if_neg h]
    rw [if_pos rfl, ih, flatten_cons, append_assoc]

theorem copy_lines (hwin : win.start < win.stop) (lines : List (List (List UInt8))) (index : ℕ)
    (items : List (List Char)) (peak : ℕ) (h : index < win.stop) :
    (deliver (copyLine win) (lineEvents index lines) ⟨[], items, peak⟩).items = items ++
        (((lines.map flatten).drop (win.start - index)).take (win.stop - max win.start index)).map
          lossy := by
  induction lines generalizing index items peak with
  | nil => simp [lineEvents, deliver]
  | cons pieces lines ih =>
    rw [lineEvents, map_cons]
    by_cases hs : index < win.start
    · have hsk : win.start - index = win.start - (index + 1) + 1 := by omega
      have hmax : max win.start index = max win.start (index + 1) := by omega
      rw [copy_skip hs, hsk, drop_succ_cons, hmax]
      exact ih (index + 1) items peak (by omega)
    · have hz : win.start - index = 0 := by omega
      have hmax : win.stop - max win.start index = win.stop - (index + 1) + 1 := by omega
      rw [copy_pieces hs, deliver, copyLine, if_neg hs, hz, drop_zero, hmax,
        take_succ_cons, map_cons]
      rw [nil_append]
      by_cases hst : index + 1 < win.stop
      · have hn :=
          ih (index + 1) (items ++ [lossy pieces.flatten]) (max peak pieces.flatten.length) hst
        rw [show win.start - (index + 1) = 0 by omega,
          show max win.start (index + 1) = index + 1 by omega,
          drop_zero, append_assoc, singleton_append] at hn
        rw [if_pos (decide_eq_true hst), hn]
      · rw [if_neg (by simpa using hst), show win.stop - (index + 1) = 0 by omega,
          take_zero, map_nil]

theorem scan_copies (reads : Chunks content) (hwin : win.start < win.stop) :
    (scanLines reads.chunks (copyLine win) ⟨[], [], 0⟩).items =
      ((content.splitOn newline).extract win.start win.stop).map lossy := by
  obtain ⟨lines, he, hl⟩ := scanEvents_lines 0 reads.chunks
  rw [reads.flatten_eq] at hl
  rw [scanLines, he, copy_lines hwin lines 0 [] 0 (by omega), nil_append, Nat.sub_zero,
    Nat.max_zero, hl, extract_eq_take_drop]

end Copy

theorem scan_counts (reads : Chunks content) :
    (scanLines reads.chunks countLine ⟨.fresh, 0⟩).keptLen =
      (keptLines (content.splitOn newline)).length := by
  obtain ⟨lines, he, hl⟩ := scanEvents_lines 0 reads.chunks
  rw [reads.flatten_eq] at hl
  rw [scanLines, he, count_lines lines (hl ▸ fun line hli => not_mem_of_mem_splitOn hli), hl]

theorem outputLines_lossy (content : List UInt8) :
    outputLines (lossy content) = (keptLines (content.splitOn newline)).map lossy := by
  have hs : (lossy content).splitOn '\n' = (content.splitOn newline).map lossy :=
    splitOn_lossy content
  rw [outputLines, hs, keptLines]
  simp only [rdropWhile, ← map_reverse, dropWhile_map]
  rfl

theorem textPageWindow_stop_le (codec : TokenCodec) (len : ℕ) (limit : Option ℤ)
    (token : Option String) : (textPageWindow codec len limit token).1.stop ≤ len := by
  rw [textPageWindow, pageWindow]
  split
  · exact le_refl _
  · exact min_le_right _ _

theorem paginateFile_eq (codec : TokenCodec) (counting copying : Chunks content) (limit : Option ℤ)
    (token : Option String) : (paginateFile codec counting.chunks copying.chunks limit token).1 =
      paginateTextLines codec (lossy content) limit token := by
  rw [paginateFile, paginateTextLines, scan_counts counting, outputLines_lossy, length_map]
  dsimp only
  have hs := textPageWindow_stop_le codec (keptLines (content.splitOn newline)).length limit token
  generalize textPageWindow codec (keptLines (content.splitOn newline)).length limit token =
    found at hs
  obtain ⟨win, cut⟩ := found
  have hit : (if win.start < win.stop then scanLines copying.chunks (copyLine win) ⟨[], [], 0⟩
      else ⟨[], [], 0⟩).items =
      ((keptLines (content.splitOn newline)).map lossy).extract win.start win.stop := by
    obtain ⟨blanks, hb⟩ :=
      rdropWhile_prefix (fun line => isBlank (lossy line)) (l := content.splitOn newline)
    rw [← keptLines] at hb
    have ht : (keptLines (content.splitOn newline) ++ blanks).take win.stop =
        (keptLines (content.splitOn newline)).take win.stop := take_append_of_le_length hs
    rw [hb] at ht
    split
    next hwin =>
      rw [scan_copies copying hwin, extract_eq_take_drop,
        extract_eq_take_drop, ← drop_take, ← drop_take, ht, ← map_take, ← map_drop]
    next hwin =>
      rw [extract_eq_take_drop, Nat.sub_eq_zero_of_le (Nat.le_of_not_lt hwin), take_zero]
  rw [hit]

/-! ## What the tail is -/

variable {α : Type}

section Tail

variable {file : List UInt8} {n : ℕ}

theorem scanBack_add (file : List UInt8) (n pos i j newlines : ℕ) :
    scanBack file n pos (i + j) newlines = (scanBack file n (pos + i) j newlines).bind
      (scanBack file n pos i) := by
  induction j generalizing newlines with
  | zero => rfl
  | succ j ih =>
    rw [← add_assoc, scanBack, scanBack, add_assoc pos i j]
    split
    · split
      · rfl
      · exact ih (newlines + 1)
    · exact ih newlines

/-- Where the tail starts after a scan of the whole file. -/
def cutOf : Except ℕ ℕ → ℕ
  | .error cut => cut
  | .ok _ => 0

theorem tailCut_eq (file : List UInt8) (n pos newlines : ℕ) :
    tailCut file n pos newlines = cutOf (scanBack file n 0 pos newlines) := by
  induction pos using Nat.strongRecOn generalizing newlines with
  | ind pos ih =>
    rw [tailCut]
    split
    next hz =>
      subst hz
      rfl
    next hpos =>
      have hc : 0 < scanChunk := by decide
      have hs := scanBack_add file n 0 (pos - min pos scanChunk) (min pos scanChunk) newlines
      rw [show pos - min pos scanChunk + min pos scanChunk = pos by omega, zero_add] at hs
      rw [hs]
      cases scanBack file n (pos - min pos scanChunk) (min pos scanChunk) newlines with
      | error cut => rfl
      | ok newlines => exact ih _ (by omega) newlines

inductive Found (file : List UInt8) (n : ℕ) : Except ℕ ℕ → Prop
  | cut (before after : List UInt8) (hfile : file = before ++ newline :: after)
      (hcount : after.count newline + 1 = n) :
      Found file n (.error (before.length + 1))
  | all (newlines : ℕ) (hcount : file.count newline = newlines) (hlt : newlines < n) :
      Found file n (.ok newlines)

theorem scanBack_found (i newlines : ℕ) (hi : i ≤ file.length)
    (hc : (file.drop i).count newline = newlines)
    (hlt : newlines < n) : Found file n (scanBack file n 0 i newlines) := by
  induction i generalizing newlines with
  | zero => exact .all newlines (by simpa using hc) hlt
  | succ i ih =>
    have hd : file.drop i = file[i] :: file.drop (i + 1) := drop_eq_getElem_cons hi
    rw [scanBack, zero_add, getElem?_eq_getElem hi]
    split
    next hs =>
      have hne := Option.some.inj hs
      split
      next hn =>
        have hf := (take_append_drop i file).symm
        rw [hd, hne] at hf
        have hfo := Found.cut (n := n) (file.take i) (file.drop (i + 1)) hf (by rw [hc, hn])
        rwa [length_take, min_eq_left (le_of_succ_le hi)] at hfo
      next hn =>
        refine ih (newlines + 1) (le_of_succ_le hi) ?_ (by omega)
        rw [hd, hne, count_cons_self, hc]
    next ho =>
      refine ih newlines (le_of_succ_le hi) ?_ hlt
      rw [hd, count_cons_of_ne fun hne => ho (congrArg some hne), hc]

theorem rtake_append (xs ys : List α) : (xs ++ ys).rtake ys.length = ys := by
  simp [rtake]

theorem rtake_all {xs : List α} (h : xs.length ≤ n) : xs.rtake n = xs := by
  rw [rtake, Nat.sub_eq_zero_of_le h, drop_zero]

theorem tailLines_eq (file : List UInt8) (hn : 0 < n) :
    tailLines file n = ['\n'].intercalate (((lossy file).splitOn '\n').rtake n) := by
  have hfo := scanBack_found (n := n) file.length 0 (le_refl _) (by simp) hn
  have hl : ∀ after : List UInt8,
      lossy after = ['\n'].intercalate ((after.splitOn newline).map lossy) := by
    intro after
    have hs : (lossy after).splitOn '\n' = (after.splitOn newline).map lossy := splitOn_lossy after
    rw [← hs, intercalate_splitOn]
  have hs : (lossy file).splitOn '\n' = (file.splitOn newline).map lossy := splitOn_lossy file
  rw [tailLines, tailCut_eq, hs]
  generalize scanBack file n 0 file.length 0 = found at hfo
  cases hfo with
  | cut before after hf hc =>
    have hlen : (after.splitOn newline).length = n := by rw [length_splitOn, hc]
    have hd : file.drop (before.length + 1) = after := by simp [hf]
    have ht : after.take (file.length - (before.length + 1)) = after := by
      refine take_of_length_le ?_
      rw [hf, length_append, length_cons]
      omega
    rw [cutOf, hd, ht, hl after]
    congr 1
    rw [hf, splitOn_append_cons_self, map_append, ← hlen, ← length_map lossy, rtake_append]
  | all newlines hc hlt =>
    have hlen : ((file.splitOn newline).map lossy).length ≤ n := by
      rw [length_map, length_splitOn, hc]
      omega
    rw [cutOf, drop_zero, Nat.sub_zero, take_length, rtake_all hlen, ← hl file]

theorem scanBack_zero (file : List UInt8) (i newlines : ℕ) :
    ∃ found, scanBack file 0 0 i newlines = .ok found := by
  induction i generalizing newlines with
  | zero => exact ⟨newlines, rfl⟩
  | succ i ih =>
    rw [scanBack, if_neg (succ_ne_zero newlines)]
    split
    · exact ih (newlines + 1)
    · exact ih newlines

theorem tailLines_zero (file : List UInt8) : tailLines file 0 = lossy file := by
  obtain ⟨found, hf⟩ := scanBack_zero file file.length 0
  rw [tailLines, tailCut_eq, hf, cutOf, drop_zero, Nat.sub_zero, take_length]

end Tail

/-- Reading a log from its file and from its text. -/
theorem file_reads_as_text (codec : TokenCodec) {content : List UInt8}
    (counting copying : Chunks content) (limit : Option ℤ) (token : Option String) (n : ℕ) :
    (paginateFile codec counting.chunks copying.chunks limit token).1 =
        paginateTextLines codec (lossy content) limit token ∧ tailLines content n =
        if n = 0 then lossy content
        else ['\n'].intercalate (((lossy content).splitOn '\n').rtake n) := by
  refine ⟨paginateFile_eq codec counting copying limit token, ?_⟩
  split
  next hz =>
    subst hz
    exact tailLines_zero content
  next hne => exact tailLines_eq content (Nat.pos_of_ne_zero hne)

def byByte : Chunks [97, 10, 98] := ⟨[[97], [10], [98]], rfl, by decide⟩

def atOnce : Chunks [97, 10, 98] := ⟨[[97, 10, 98]], rfl, by decide⟩

theorem file_reads_as_text_by_byte :
    (paginateFile default byByte.chunks atOnce.chunks (some 1) none).1 =
        paginateTextLines default "a\nb".toList (some 1) none ∧
          tailLines [97, 10, 98] 1 = "b".toList := by
  have h := file_reads_as_text default byByte atOnce (some 1) none 1
  rw [show lossy [97, 10, 98] = "a\nb".toList by decide +kernel] at h
  exact ⟨h.1, h.2.trans (by decide)⟩

/-- The last no lines of `a` and `b` are both of them. -/
theorem tail_of_no_lines :
    tailLines [97, 10, 98] 0 ≠
      ['\n'].intercalate (((lossy [97, 10, 98]).splitOn '\n').rtake 0) := by
  rw [tailLines_zero]
  decide

end Intentd.LogPages
