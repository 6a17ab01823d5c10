import Intentd.ImageReferences
import Mathlib.Data.List.Induction

/-!
# Image references however a text is streamed

Whether an opener is a reference is decided by the characters up to where it ends, so what a scan
has found in a text it also finds in a longer one. An opener that is still open is looked at again
when more text is there, unless it is already longer than a reference may be.
-/
namespace Intentd.ImageReferences
open List

variable {rest passed : List Char} {s : Span}

theorem Span.push_found {inside : List Char} (h : s.push passed = .found inside rest) :
    ∃ inside', s = .found inside' rest ∧ inside = passed ++ inside' := by
  cases s with
  | found inside' rest' => cases h; exact ⟨inside', rfl, rfl⟩
  | incomplete | invalid => cases h

theorem Span.push_invalid (h : s.push passed = .invalid) : s = .invalid := by
  cases s <;> first | rfl | cases h

variable {judge : ℕ → Char → Verdict} {depth : ℕ} {chars : List Char}

section Spans

variable {inside : List Char}

/-- A loop that passes a backslash has seen all it needs when it stops. -/
theorem span_found (he : ∀ depth, judge depth '\\' = .go depth)
    (h : span judge depth chars = .found inside rest) :
    ∃ c tail, rest = c :: tail ∧ chars = inside ++ rest ∧
      ∀ tail, span judge depth (inside ++ c :: tail) = .found inside (c :: tail) := by
  have hst : ∀ {depth c}, judge depth c = .stop →
      ∀ tail, span judge depth (c :: tail) = .found [] (c :: tail) := by
    intro depth c hc tail
    have hne : c ≠ '\\' := by
      rintro rfl
      cases (he depth).symm.trans hc
    cases tail <;> simp [span, hc, hne]
  fun_induction span judge depth chars generalizing inside rest with
  | case1 | case3 | case4 | case7 => cases h
  | case2 depth c hc => cases h; exact ⟨c, [], rfl, rfl, hst hc⟩
  | case5 depth c d chars hp ih =>
    obtain ⟨inside, hs, rfl⟩ := Span.push_found h
    obtain ⟨c', tail, rfl, rfl, hall⟩ := ih hs
    refine ⟨c', tail, rfl, rfl, fun tail => ?_⟩
    simp only [cons_append, nil_append]
    rw [span, if_pos hp, hall, Span.push]
    rfl
  | case6 depth c d chars hp hc => cases h; exact ⟨c, d :: chars, rfl, rfl, hst hc⟩
  | case8 depth c d chars hp depth' hgo ih =>
    obtain ⟨inside, hs, rfl⟩ := Span.push_found h
    obtain ⟨c', tail, rfl, heq, hall⟩ := ih hs
    refine ⟨c', tail, rfl, by rw [heq]; rfl, fun tail => ?_⟩
    -- the loop looks at the same next character
    obtain ⟨more, hm⟩ : ∃ more, inside ++ c' :: tail = d :: more := by
      cases inside <;> cases heq <;> exact ⟨_, rfl⟩
    have ht := hall tail
    simp only [cons_append, nil_append]
    rw [hm] at ht ⊢
    rw [span, if_neg hp]
    simp only [hgo, ht, Span.push, cons_append, nil_append]

theorem span_invalid (he : ∀ depth, judge depth '\\' = .go depth)
    (h : span judge depth chars = .invalid) (more : List Char) :
    span judge depth (chars ++ more) = .invalid := by
  fun_induction span judge depth chars with
  | case1 | case2 | case4 | case6 => cases h
  | case3 depth c hc =>
    have hne : c ≠ '\\' := by
      rintro rfl
      cases (he depth).symm.trans hc
    cases more <;> simp [span, hc, hne]
  | case5 depth c d chars hp ih =>
    simp only [cons_append]
    rw [span, if_pos hp, ih (Span.push_invalid h), Span.push]
  | case7 depth c d chars hp hc =>
    simp only [cons_append]
    rw [span, if_neg hp, hc]
  | case8 depth c d chars hp depth' hgo ih =>
    have hm := ih (Span.push_invalid h)
    simp only [cons_append] at hm ⊢
    rw [span, if_neg hp]
    simp only [hgo, hm, Span.push]

end Spans

variable {c : Char}

theorem skip_cons (h : skipWhitespace chars = c :: rest) :
    ∃ white, chars = white ++ c :: rest ∧ ∀ tail,
      skipWhitespace (white ++ c :: tail) = c :: tail := by
  induction chars with
  | nil => cases h
  | cons d chars ih =>
    by_cases hd : isAsciiWhitespace d
    · obtain ⟨white, rfl, hall⟩ := ih (by simpa [skipWhitespace, hd] using h)
      exact ⟨d :: white, rfl, fun tail => by simpa [skipWhitespace, hd] using hall tail⟩
    · cases (show d :: chars = c :: rest by simpa [skipWhitespace, hd] using h)
      exact ⟨[], rfl, fun tail => by simp [skipWhitespace, hd]⟩

/-! ## The parser -/

/-- A parser needs more text, or what follows does not change what it says of the text it has seen.
-/
inductive Settled (f : List Char → RefParse) (chars : List Char) : Prop
  | incomplete (h : f chars = .incomplete)
  | invalid (h : ∀ more, f (chars ++ more) = .invalid)
  | complete (src : String) (used rest : List Char) (hchars : chars = used ++ rest)
      (h : ∀ tail, f (used ++ tail) = .complete src tail)

variable {f k : List Char → RefParse}

theorem Settled.onward {b : List Char} (h : Settled k chars)
    (hf : ∀ tail, f (b ++ tail) = k tail) : Settled f (b ++ chars) := by
  cases h with
  | incomplete h => exact .incomplete ((hf chars).trans h)
  | invalid h => exact .invalid fun more => by rw [append_assoc, hf, h]
  | complete src used rest hc h =>
    exact .complete src (b ++ used) rest (by rw [hc, append_assoc])
      fun tail => by rw [append_assoc, hf, h]

theorem Settled.uncons (h : Settled f (c :: rest))
    (hf : f [] = .incomplete) : Settled (fun rest => f (c :: rest)) rest := by
  cases h with
  | incomplete h => exact .incomplete h
  | invalid h => exact .invalid h
  | complete src used rest hc h =>
    cases used with
    | nil => exact absurd (hf.symm.trans (h [])) nofun
    | cons c' used =>
      cases hc
      exact .complete src used rest rfl h

/-- A parser that reads on from where another one stands. -/
theorem Settled.after {before tail : List Char} (h : Settled k (c :: tail))
    (hk : k [] = .incomplete) (hf : ∀ tail, f (before ++ c :: tail) = k (c :: tail)) :
    Settled f (before ++ c :: tail) := by
  rw [append_cons]
  exact (h.uncons hk).onward fun tail => by rw [append_assoc]; exact hf tail

theorem settled_complete (src : String) (chars : List Char) : Settled (.complete src) chars :=
  .complete src [] chars rfl fun _ => rfl

theorem settled_invalid (chars : List Char) : Settled (fun _ => .invalid) chars :=
  .invalid fun _ => rfl

theorem Settled.ite {p : Prop} [Decidable p] {g : List Char → RefParse} (hf : p → Settled f chars)
    (hg : ¬ p → Settled g chars) : Settled (fun chars => if p then f chars else g chars) chars := by
  by_cases hp : p
  · simpa [hp] using hf hp
  · simpa [hp] using hg hp

def next (g : Char → List Char → RefParse) : List Char → RefParse
  | [] => .incomplete
  | c :: rest => g c rest

theorem settled_next {g : Char → List Char → RefParse} (hg : ∀ c rest, Settled (g c) rest)
    (chars : List Char) : Settled (next g) chars := by
  cases chars with
  | nil => exact .incomplete rfl
  | cons c rest => exact (hg c rest).onward (b := [c]) fun _ => rfl

theorem settled_skip (hnil : f [] = .incomplete) (hf : ∀ chars, Settled f chars)
    (chars : List Char) : Settled (fun chars => f (skipWhitespace chars)) chars := by
  cases hs : skipWhitespace chars with
  | nil => exact .incomplete (by rw [hs, hnil])
  | cons c rest =>
    obtain ⟨white, rfl, hall⟩ := skip_cons hs
    exact (hf _).after hnil fun tail => by rw [hall]

def Span.andThen (k : List Char → List Char → RefParse) : Span → RefParse
  | found inside rest => k inside rest
  | incomplete => .incomplete
  | invalid => .invalid

theorem settled_andThen {k : List Char → List Char → RefParse}
    (he : ∀ depth, judge depth '\\' = .go depth)
    (hk : ∀ inside, k inside [] = .incomplete ∧ ∀ rest, Settled (k inside) rest)
    (chars : List Char) : Settled (fun chars => (span judge depth chars).andThen k) chars := by
  cases hs : span judge depth chars with
  | incomplete => exact .incomplete (by rw [hs]; rfl)
  | invalid => exact .invalid fun more => by rw [span_invalid he hs more]; rfl
  | found inside rest =>
    obtain ⟨c, tail, rfl, rfl, hall⟩ := span_found he hs
    exact ((hk inside).2 _).after (hk inside).1 fun tail => by rw [hall]; rfl

theorem settled_tail (hk : k [] = .incomplete) (h : ∀ rest, Settled k rest) (rest : List Char) :
    Settled (fun rest => k rest.tail) rest := by
  cases rest with
  | nil => exact .incomplete hk
  | cons c rest => exact (h rest).onward (b := [c]) fun _ => rfl

theorem settled_afterTitle (dest rest : List Char) : Settled (afterTitle dest) rest :=
  settled_skip rfl (settled_next fun _ rest => .ite (fun _ => settled_complete _ rest) fun _ =>
    settled_invalid rest) rest

theorem settled_afterDestination (dest rest : List Char) :
    Settled (afterDestination dest) rest := by
  have heq : afterDestination dest = fun rest => next (fun c rest =>
      if c = ')' then .complete (srcOf dest) rest
      else (closerOf c).elim .invalid fun closer =>
        (span (title closer) 0 rest).andThen fun _ rest => afterTitle dest rest.tail)
        (skipWhitespace rest) := by
    funext rest
    unfold afterDestination
    cases skipWhitespace rest with
    | nil => rfl
    | cons c rest => cases hc : closerOf c <;> simp only [next, hc] <;> rfl
  rw [heq]
  refine settled_skip rfl (settled_next fun c rest =>
    .ite (fun _ => settled_complete _ rest) fun _ => ?_) rest
  cases hc : closerOf c with
  | none => exact settled_invalid rest
  | some closer =>
    refine settled_andThen (fun _ => ?_) (fun _ =>
      ⟨rfl, settled_tail rfl (settled_afterTitle dest)⟩) rest
    unfold closerOf at hc
    unfold title
    grind

theorem settled_afterLabel (rest : List Char) : Settled afterLabel rest := by
  have heq : afterLabel = fun rest => next (fun c rest =>
      if c = '<' then (span angled 0 rest).andThen fun dest rest => afterDestination dest rest.tail
      else (span bare 0 (c :: rest)).andThen afterDestination) (skipWhitespace rest) := rfl
  rw [heq]
  refine settled_skip rfl (settled_next fun c rest => .ite (fun _ => ?_) fun _ => ?_) rest
  · exact settled_andThen (fun _ => rfl) (fun _ =>
      ⟨rfl, settled_tail rfl (settled_afterDestination _)⟩) rest
  · exact (settled_andThen (fun _ => rfl) (fun _ => ⟨rfl, settled_afterDestination _⟩)
      (c :: rest)).uncons rfl

theorem settled_parseImageRef (chars : List Char) : Settled parseImageRef chars := by
  have heq : parseImageRef = fun chars => (span label 1 chars).andThen fun _ rest =>
      next (fun c rest => if c = '(' then afterLabel rest else .invalid) rest.tail := rfl
  rw [heq]
  refine settled_andThen (fun _ => rfl) (fun _ =>
    ⟨rfl, settled_tail rfl (settled_next fun _ rest => ?_)⟩) chars
  exact .ite (fun _ => settled_afterLabel rest) fun _ => settled_invalid rest

/-! ## The scan -/

/-- Every opener that is a reference is one within the span that a scan follows. -/
def ResolvesWithin (text : List Char) : Prop :=
  ∀ before rest src after, text = before ++ '!' :: '[' :: rest →
    parseImageRef rest = .complete src after →
    byteSize ('!' :: '[' :: rest) ≤ byteSize after + maxImageRefSpan

theorem ResolvesWithin.drop {text : List Char} (h : ResolvesWithin text) (n : ℕ) :
    ResolvesWithin (text.drop n) := by
  intro before rest src after ht
  refine h (text.take n ++ before) rest src after ?_
  rw [append_assoc, ← ht, take_append_drop]

section Scan

variable {d : Char} {more : List Char}

/-- A scan goes on after the first character. -/
def Passes (c d : Char) (rest : List Char) : Prop :=
  c = '!' → d = '[' → parseImageRef rest = .invalid ∨
    parseImageRef rest = .incomplete ∧ maxImageRefSpan < byteSize (c :: d :: rest)

theorem scan_of_passes (h : Passes c d rest) :
    scan 0 (c :: d :: rest) = ((scan 0 (d :: rest)).1, (scan 0 (d :: rest)).2 + 1) := by
  rw [scan]
  by_cases ho : c = '!' ∧ d = '['
  · rcases h ho.1 ho.2 with hp | ⟨hp, hbig⟩ <;> simp [ho, hp]
    simpa [ho] using hbig
  · simp only [Bool.and_eq_true, decide_eq_true_eq, if_neg ho]

theorem parse_append {src : String} {after : List Char}
    (h : parseImageRef rest = .complete src after) (more : List Char) :
    parseImageRef (rest ++ more) = .complete src (after ++ more) := by
  cases settled_parseImageRef rest with
  | incomplete hp => cases hp.symm.trans h
  | invalid hp => cases (append_nil rest ▸ hp []).symm.trans h
  | complete src' used tail hr hp =>
    have heq := hp tail
    rw [← hr, h] at heq
    cases heq
    rw [hr, append_assoc, hp]

theorem Passes.append (h : Passes c d rest) (hw : ResolvesWithin (c :: d :: rest ++ more)) :
    Passes c d (rest ++ more) := by
  rintro rfl rfl
  rcases h rfl rfl with hin | ⟨hinc, hbig⟩
  · cases settled_parseImageRef rest with
    | incomplete hp => cases hp.symm.trans hin
    | invalid hp => exact .inl (hp more)
    | complete src used tail hr hp => cases (hp tail).symm.trans (hr ▸ hin)
  have hs : byteSize ('!' :: '[' :: (rest ++ more)) = byteSize ('!' :: '[' :: rest) +
      byteSize more := by
    simp [byteSize, Nat.add_assoc]
  cases settled_parseImageRef (rest ++ more) with
  | incomplete hp => exact .inr ⟨hp, by omega⟩
  | invalid hp => exact .inl (append_nil (rest ++ more) ▸ hp [])
  | complete src used tail hr hp =>
    -- a reference that ends in the new text is too long, and one that ends before it was one before
    exfalso
    rcases append_eq_append_iff.mp hr with ⟨between, -, hm⟩ | ⟨between, hu, -⟩
    · have hle := hw [] (rest ++ more) src tail rfl (hr ▸ hp tail)
      rw [hm] at hs hle
      simp only [byteSize, map_append, sum_append] at hs hle hbig
      omega
    · cases hinc.symm.trans (hu ▸ hp between)

end Scan

/-- The rest of a text may be scanned later, from where a scan of its start stopped. -/
theorem scan_append {skip : ℕ} {more : List Char} (hs : skip ≤ chars.length)
    (hw : ResolvesWithin (chars ++ more)) :
    (scan skip (chars ++ more)).1 = (scan skip chars).1 ++
      (scan 0 ((chars ++ more).drop (scan skip chars).2)).1 := by
  have hon : ∀ {c d rest}, Passes c d rest → ResolvesWithin (c :: d :: rest ++ more) →
      (scan 0 (d :: rest ++ more)).1 = (scan 0 (d :: rest)).1 ++
        (scan 0 ((d :: rest ++ more).drop (scan 0 (d :: rest)).2)).1 →
      (scan 0 (c :: d :: rest ++ more)).1 = (scan 0 (c :: d :: rest)).1 ++
          (scan 0 ((c :: d :: rest ++ more).drop (scan 0 (c :: d :: rest)).2)).1 := by
    intro c d rest hpa hw ih
    have hm := scan_of_passes (hpa.append hw)
    simp only [cons_append] at ih hm ⊢
    rw [hm, scan_of_passes hpa, ih]
    rfl
  induction skip, chars using scan.induct with
  | case1 skip => simp [Nat.le_zero.mp hs, scan]
  | case2 skip c rest ih => exact ih (Nat.le_of_succ_le_succ hs) (hw.drop 1)
  | case3 c => simp [scan]
  | case4 c d rest ho src after hp _ ih =>
    have hlen : (rest ++ more).length - (after ++ more).length = rest.length - after.length := by
      simp only [length_append]
      omega
    have hih := ih (by simp) (hw.drop 1)
    simp only [cons_append] at hih ⊢
    rw [scan, scan, if_pos ho, if_pos ho, parse_append hp, hp]
    simp only [hlen, hih, drop_succ_cons]
    split_ifs <;> rfl
  | case5 c d rest ho hp hbig ih =>
    exact hon (fun _ _ => .inr ⟨hp, hbig⟩) hw (ih (Nat.zero_le _) (hw.drop 1))
  | case6 c d rest ho hp hsm _ =>
    rw [scan.eq_def 0 (c :: d :: rest)]
    simp [hp, hsm, ho]
  | case7 c d rest ho hp ih => exact hon (fun _ _ => .inl hp) hw (ih (Nat.zero_le _) (hw.drop 1))
  | case8 c d rest ho ih =>
    exact hon (fun hc hd => absurd (by simp [hc, hd]) ho) hw (ih (Nat.zero_le _) (hw.drop 1))

/-- A text that grows, how far it was scanned and what was found. -/
structure Streamed where
  text : String
  scanPos : ℕ
  refs : List String

def Streamed.push (s : Streamed) (chunk : String) : Streamed :=
  let scanned := scanImageRefs (s.text ++ chunk) s.scanPos
  ⟨s.text ++ chunk, scanned.2, s.refs ++ scanned.1⟩

def stream (chunks : List String) : Streamed := chunks.foldl Streamed.push ⟨"", 0, []⟩

theorem stream_snoc (chunks : List String) (chunk : String) :
    stream (chunks ++ [chunk]) = (stream chunks).push chunk := by
  rw [stream, foldl_append]
  rfl

theorem stream_text (chunks : List String) : (stream chunks).text = String.join chunks := by
  induction chunks using reverseRecOn with
  | nil => rfl
  | append_singleton chunks chunk ih => simp [stream_snoc, Streamed.push, ih]

/-- What was found, with what a scan of the whole text finds from there on, is what one scan finds.
-/
structure Streamed.Scans (s : Streamed) (later : List Char) : Prop where
  pos : s.scanPos ≤ s.text.toList.length
  refs : (scan 0 (s.text.toList ++ later)).1 =
    s.refs ++ (scan 0 ((s.text.toList ++ later).drop s.scanPos)).1
  done : (scan 0 (s.text.toList.drop s.scanPos)).1 = []

theorem Streamed.Scans.push {s : Streamed} {later : List Char} {chunk : String}
    (h : s.Scans (chunk.toList ++ later))
    (hw : ResolvesWithin (s.text.toList ++ (chunk.toList ++ later))) :
    (s.push chunk).Scans later := by
  obtain ⟨hpos, hr, -⟩ := h
  rw [← append_assoc, ← String.toList_append] at hr hw
  have hpos : s.scanPos ≤ (s.text ++ chunk).toList.length := by
    rw [String.toList_append, length_append]
    exact Nat.le_add_right_of_le hpos
  unfold Streamed.push
  generalize s.text ++ chunk = text at *
  have hle := scan_le 0 (text.toList.drop s.scanPos)
  have hd := @drop_append_of_le_length _ _ later _ hpos
  have hm := scan_append (Nat.zero_le _) (hd ▸ hw.drop s.scanPos)
  rw [length_drop] at hle
  rw [← hd, drop_drop] at hm
  simp only [scanImageRefs, Nat.min_eq_left hpos]
  refine ⟨by simp only; omega, ?_, ?_⟩
  · rw [hr, hm, append_assoc]
  · rw [← drop_drop, scan_drop]

theorem scans_stream (chunks : List String) (later : List Char)
    (hw : ResolvesWithin ((stream chunks).text.toList ++ later)) : (stream chunks).Scans later := by
  induction chunks using reverseRecOn generalizing later with
  | nil => exact ⟨Nat.zero_le _, rfl, rfl⟩
  | append_singleton chunks chunk ih =>
    rw [stream_snoc] at hw ⊢
    rw [Streamed.push, String.toList_append, append_assoc] at hw
    exact (ih _ hw).push hw

/-- However a text is cut, scanning it as it grows finds what one scan of all of it finds. -/
theorem streamed_refs_found_once (chunks : List String)
    (hw : ResolvesWithin (String.join chunks).toList) :
    (stream chunks).refs = (scanImageRefs (String.join chunks) 0).1 := by
  rw [← stream_text] at hw ⊢
  have h := scans_stream chunks [] (by rwa [append_nil])
  have hr := h.refs
  rw [append_nil, h.done, append_nil] at hr
  simp [scanImageRefs, hr]

/-- A reference in three chunks, beside an opener that is none. -/
theorem streamed_refs_found_once_split : (stream ["![](", "a)!", "[b] ![]("]).refs = ["a"] := by
  rw [streamed_refs_found_once]
  · decide +kernel
  · intro before rest src after ht _
    have hs : byteSize (before ++ '!' :: '[' :: rest) ≤ maxImageRefSpan := ht ▸ by decide +kernel
    simp only [byteSize, map_append, sum_append] at hs ⊢
    omega

end Intentd.ImageReferences
