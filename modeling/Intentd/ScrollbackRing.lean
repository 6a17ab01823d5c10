import Intentd.MachineWords
import Mathlib.Data.List.DropRight

/-!
# The scrollback ring of a terminal

The ring holds the most recent bytes of a terminal's output together with the absolute
positions of their newlines and the number of bytes that are not blank. Each of the three is
evicted by a loop of its own, and a chunk larger than the ring goes another way.

The positions are counted from the start of the process in 64 bits. An operation that leaves
the range, or that would subtract too much, has no result.
-/
namespace Intentd.ScrollbackRing
open MachineWords List Nat

structure Scrollback where
  buf : List UInt8
  maxBytes : ℕ
  newlines : List ℕ
  streamOffset : ℕ
  nonWhitespaceBytes : ℕ

/-- Bytes and their half-open position in the stream. -/
structure OutputChunk where
  bytes : List UInt8
  startOffset : ℕ
  endOffset : ℕ

def newline : UInt8 := 10

def isAsciiWhitespace (byte : UInt8) : Bool :=
  byte = 9 || byte = 10 || byte = 12 || byte = 13 || byte = 32

def nonWhitespace (bytes : List UInt8) : ℕ := bytes.countP fun byte => !isAsciiWhitespace byte

def indexNewlines (start : ℕ) (bytes : List UInt8) : Option (List ℕ) :=
  (bytes.zipIdx.filter fun p => p.1 = newline).mapM fun p => checkedAdd start p.2

namespace Scrollback

def new (maxBytes : ℕ) : Scrollback := ⟨[], maxBytes, [], 0, 0⟩

variable (sb : Scrollback)

def push (data : List UInt8) : Option Scrollback := do
  let streamOffset ← checkedAdd sb.streamOffset data.length
  if sb.maxBytes = 0 then some { sb with streamOffset }
  else
    let tail := if sb.maxBytes < data.length then data.drop (data.length - sb.maxBytes) else data
    let tailStart ← checkedAdd sb.streamOffset (data.length - tail.length)
    let found ← indexNewlines tailStart tail
    let counted ← checkedAdd sb.nonWhitespaceBytes (nonWhitespace tail)
    let overflow := (sb.buf ++ tail).length - sb.maxBytes
    let nonWhitespaceBytes ← checkedSub counted (nonWhitespace ((sb.buf ++ tail).take overflow))
    let buf := (sb.buf ++ tail).drop overflow
    let retainedStart ← checkedSub streamOffset buf.length
    some { sb with
        buf
        newlines := (sb.newlines ++ found).dropWhile fun offset => offset < retainedStart
        streamOffset
        nonWhitespaceBytes }

/-- All retained history is dropped; the position stays. -/
def clear : Scrollback := { sb with buf := [], newlines := [], nonWhitespaceBytes := 0 }

def snapshotTail (maxBytes : ℕ) : List UInt8 := sb.buf.drop (sb.buf.length - maxBytes)

def positionedSnapshot (maxBytes : ℕ) : Option OutputChunk := do
  let bytes := sb.snapshotTail maxBytes
  let startOffset ← checkedSub sb.streamOffset bytes.length
  some ⟨bytes, startOffset, sb.streamOffset⟩

end Scrollback

inductive Op where
  | push (data : List UInt8)
  | clear

def step (sb : Scrollback) : Op → Option Scrollback
  | .push data => sb.push data
  | .clear => some sb.clear

def run (sb : Scrollback) (ops : List Op) : Option Scrollback := ops.foldlM step sb

/-! ## What was pushed -/

def stream (ops : List Op) : List UInt8 :=
  ops.flatMap fun op => match op with
    | .push data => data
    | .clear => []

def sinceClear (ops : List Op) : List UInt8 :=
  ops.foldl (fun since op => match op with
    | .push data => since ++ data
    | .clear => []) []

def newlinesAt (bytes : List UInt8) (start count : ℕ) : List ℕ :=
  (range' start count).filter fun i => bytes[i]? = some newline

/-- The ring after everything in `bytes` was pushed, `since` of it after the last clear. -/
structure Exact (bytes since : List UInt8) (sb : Scrollback) : Prop where
  offset_eq : sb.streamOffset = bytes.length
  buf_eq : sb.buf = since.rtake sb.maxBytes
  newlines_eq : sb.newlines = newlinesAt bytes (bytes.length - sb.buf.length) sb.buf.length
  count_eq : sb.nonWhitespaceBytes = nonWhitespace sb.buf

structure Framed (bytes : List UInt8) (maxBytes : ℕ) (sb : Scrollback) (chunk : OutputChunk) :
    Prop where
  bytes_eq : chunk.bytes = sb.buf.rtake maxBytes
  end_eq : chunk.endOffset = bytes.length
  length_eq : chunk.startOffset + chunk.bytes.length = chunk.endOffset
  framed : bytes.extract chunk.startOffset chunk.endOffset = chunk.bytes

/-! ## The newline index -/

section Newlines

variable {bytes more : List UInt8} {start mid count : ℕ}

theorem newlinesAt_cons (bytes : List UInt8) (start count : ℕ) :
    newlinesAt bytes start (count + 1) = (if bytes[start]? = some newline then [start] else []) ++
        newlinesAt bytes (start + 1) count := by
  rw [newlinesAt, range'_succ, filter_cons]
  split <;> simp_all [newlinesAt]

theorem newlinesAt_append (bytes : List UInt8) (start count count' : ℕ) :
    newlinesAt bytes start (count + count') =
      newlinesAt bytes start count ++ newlinesAt bytes (start + count) count' := by
  rw [newlinesAt, ← range'_append_1, filter_append]
  rfl

theorem newlinesAt_extend (h : start + count ≤ bytes.length) :
    newlinesAt (bytes ++ more) start count = newlinesAt bytes start count := by
  refine filter_congr fun i hi => ?_
  have hlt : i < bytes.length := by
    have hi := mem_range'_1.mp hi
    omega
  rw [getElem?_append_left hlt]

theorem mem_newlinesAt {i : ℕ} (h : i ∈ newlinesAt bytes start count) :
    start ≤ i ∧ i < start + count :=
  mem_range'_1.mp (mem_of_mem_filter h)

theorem dropWhile_newlines {before : List ℕ} (h : ∀ i ∈ before, i < start) :
    (before ++ newlinesAt bytes start count).dropWhile (fun i => i < start) =
      newlinesAt bytes start count := by
  rw [dropWhile_append_of_pos fun i hi => decide_eq_true (h i hi)]
  refine dropWhile_eq_self_iff.mpr fun hne => ?_
  have hf := mem_newlinesAt (getElem_mem hne)
  simpa using hf.1

theorem indexNewlines_from (chunk : List UInt8) (k : ℕ) (h : bytes.drop (start + k) = chunk)
    (hmax : bytes.length ≤ u64Max) :
    ((chunk.zipIdx k).filter fun p => p.1 = newline).mapM (fun p => checkedAdd start p.2) =
      some (newlinesAt bytes (start + k) chunk.length) := by
  induction chunk generalizing k with
  | nil => rfl
  | cons byte chunk ih =>
    have hlt : start + k < bytes.length := by
      have hlen := congrArg length h
      simp only [length_drop, length_cons] at hlen
      omega
    have hs := (drop_eq_getElem_cons hlt).symm.trans h
    obtain ⟨hb, hr⟩ := List.cons.inj hs
    have hget : bytes[start + k]? = some byte := by
      rw [getElem?_eq_getElem hlt, hb]
    have hadd : checkedAdd start k = some (start + k) :=
      checkedAdd_eq_some.mpr ⟨rfl, le_trans (le_of_lt hlt) hmax⟩
    rw [zipIdx_cons, filter_cons, length_cons, newlinesAt_cons, hget]
    have hih := ih (k + 1) hr
    rw [← add_assoc] at hih
    by_cases hnew : byte = newline
    · simp [hnew, mapM_cons, hadd, hih]
    · simp [hnew, hih]

theorem indexNewlines_eq {chunk : List UInt8} (h : bytes.drop start = chunk)
    (hmax : bytes.length ≤ u64Max) :
    indexNewlines start chunk = some (newlinesAt bytes start chunk.length) :=
  indexNewlines_from chunk 0 h hmax

end Newlines

/-! ## One push -/

variable {sb : Scrollback}

section Push

variable {bytes since data : List UInt8}

theorem nonWhitespace_append (a b : List UInt8) :
    nonWhitespace (a ++ b) = nonWhitespace a + nonWhitespace b :=
  countP_append

theorem nonWhitespace_take_drop (bytes : List UInt8) (n : ℕ) :
    nonWhitespace bytes - nonWhitespace (bytes.take n) = nonWhitespace (bytes.drop n) := by
  have hsum := nonWhitespace_append (bytes.take n) (bytes.drop n)
  rw [take_append_drop] at hsum
  omega

/-- The part of a chunk that the ring looks at. -/
def tailOf (maxBytes : ℕ) (data : List UInt8) : List UInt8 :=
  if maxBytes < data.length then data.drop (data.length - maxBytes) else data

theorem tailOf_eq (maxBytes : ℕ) (data : List UInt8) :
    tailOf maxBytes data = data.rtake maxBytes := by
  rw [tailOf, rtake]
  split
  · rfl
  · rw [Nat.sub_eq_zero_of_le (by omega), drop_zero]

theorem length_rtake (bytes : List UInt8) (n : ℕ) :
    (bytes.rtake n).length = min n bytes.length := by
  rw [rtake, length_drop]
  omega

theorem drop_overflow (since data : List UInt8) (n : ℕ) :
    (since.rtake n ++ data.rtake n).drop ((since.rtake n ++ data.rtake n).length - n) =
      (since ++ data).rtake n := by
  have hs := length_rtake since n
  have hd := length_rtake data n
  simp only [rtake] at hs hd ⊢
  rw [length_append, drop_append, drop_append, drop_drop, drop_drop, length_append]
  congr 1
  · by_cases hbig : data.length < n
    · congr 1
      omega
    · rw [drop_eq_nil_of_le (by omega), drop_eq_nil_of_le (by omega)]
  · congr 1
    omega

variable (h : Exact bytes since sb)
include h

theorem Exact.evict (hs : since <:+ bytes) (data : List UInt8) :
    (sb.newlines ++ newlinesAt (bytes ++ data) (bytes.length + (data.length - sb.maxBytes))
        (data.rtake sb.maxBytes).length).dropWhile
        (fun i => i < (bytes ++ data).length - ((since ++ data).rtake sb.maxBytes).length) =
      newlinesAt (bytes ++ data)
        ((bytes ++ data).length - ((since ++ data).rtake sb.maxBytes).length)
        ((since ++ data).rtake sb.maxBytes).length := by
  have hsi := hs.length_le
  have hh : sb.buf.length = min sb.maxBytes since.length := by
    rw [h.buf_eq, length_rtake]
  rw [length_rtake, length_rtake, length_append, length_append]
  by_cases hbig : sb.maxBytes < data.length
  · -- nothing from before the chunk is kept
    rw [show bytes.length + data.length - min sb.maxBytes (since.length + data.length) =
        bytes.length + (data.length - sb.maxBytes) from by omega,
      show min sb.maxBytes (since.length + data.length) = min sb.maxBytes data.length from by omega]
    refine dropWhile_newlines fun i hi => ?_
    rw [h.newlines_eq] at hi
    have hi := mem_newlinesAt hi
    omega
  · -- the index of the old and the new bytes is cut where the retained ones start
    have hcut : newlinesAt (bytes ++ data) (bytes.length - sb.buf.length)
        (sb.buf.length + data.length) = newlinesAt (bytes ++ data) (bytes.length - sb.buf.length)
            (sb.buf.length + data.length - min sb.maxBytes (since.length + data.length)) ++
          newlinesAt (bytes ++ data) (bytes.length +
            data.length - min sb.maxBytes (since.length + data.length))
            (min sb.maxBytes (since.length + data.length)) := by
      have hsum := newlinesAt_append (bytes ++ data) (bytes.length - sb.buf.length)
        (sb.buf.length + data.length - min sb.maxBytes (since.length + data.length))
        (min sb.maxBytes (since.length + data.length))
      rwa [Nat.sub_add_cancel (by omega), show bytes.length - sb.buf.length +
        (sb.buf.length + data.length - min sb.maxBytes (since.length + data.length)) =
        bytes.length + data.length - min sb.maxBytes (since.length + data.length)
          from by omega] at hsum
    have hj :=
      newlinesAt_append (bytes ++ data) (bytes.length - sb.buf.length) sb.buf.length data.length
    have hold : newlinesAt (bytes ++ data) (bytes.length - sb.buf.length) sb.buf.length =
        sb.newlines := by
      rw [h.newlines_eq]
      exact newlinesAt_extend (by omega)
    rw [hold, Nat.sub_add_cancel (by omega)] at hj
    rw [Nat.sub_eq_zero_of_le (Nat.le_of_not_lt hbig), add_zero,
      min_eq_right (Nat.le_of_not_lt hbig), ← hj, hcut]
    refine dropWhile_newlines fun i hi => ?_
    have hi := mem_newlinesAt hi
    omega

theorem Exact.push (hsu : since <:+ bytes) (hmax : (bytes ++ data).length ≤ u64Max) :
    ∃ sb', sb.push data = some sb' ∧ sb'.maxBytes = sb.maxBytes ∧
      Exact (bytes ++ data) (since ++ data) sb' := by
  have hof : checkedAdd sb.streamOffset data.length = some (bytes ++ data).length := by
    rw [h.offset_eq]
    exact checkedAdd_eq_some.mpr ⟨length_append.symm, hmax⟩
  rw [Scrollback.push, hof]
  by_cases hze : sb.maxBytes = 0
  · have hbuf : sb.buf = [] := by
      rw [h.buf_eq, hze, rtake_zero]
    refine ⟨{ sb with streamOffset := (bytes ++ data).length }, by simp [hze], rfl, ?_⟩
    refine ⟨rfl, ?_, ?_, h.count_eq⟩
    · rw [h.buf_eq, hze, rtake_zero, rtake_zero]
    · rw [h.newlines_eq, hbuf]
      rfl
  have hsh : data.length - (data.rtake sb.maxBytes).length = data.length - sb.maxBytes := by
    rw [length_rtake]
    omega
  -- the chunk's tail and the newlines in it
  have htai : (bytes ++ data).drop (bytes.length + (data.length - sb.maxBytes)) =
      data.rtake sb.maxBytes := by
    rw [← drop_drop, drop_left]
    rfl
  have hst : checkedAdd sb.streamOffset (data.length - (data.rtake sb.maxBytes).length) =
      some (bytes.length + (data.length - sb.maxBytes)) := by
    rw [h.offset_eq, hsh]
    refine checkedAdd_eq_some.mpr ⟨rfl, le_trans ?_ hmax⟩
    rw [length_append]
    omega
  have hfo := indexNewlines_eq htai hmax
  -- the counter
  have hbu : sb.buf.length ≤ bytes.length := by
    rw [h.buf_eq, length_rtake]
    exact le_trans (min_le_right _ _) hsu.length_le
  have hco : checkedAdd sb.nonWhitespaceBytes (nonWhitespace (data.rtake sb.maxBytes)) =
      some (nonWhitespace (sb.buf ++ data.rtake sb.maxBytes)) := by
    rw [h.count_eq]
    refine checkedAdd_eq_some.mpr ⟨(nonWhitespace_append _ _).symm, ?_⟩
    refine le_trans countP_le_length (le_trans ?_ hmax)
    rw [length_append, length_append, length_rtake]
    omega
  have hdr := drop_overflow since data sb.maxBytes
  rw [← h.buf_eq] at hdr
  have hsub : checkedSub (nonWhitespace (sb.buf ++ data.rtake sb.maxBytes))
      (nonWhitespace ((sb.buf ++ data.rtake sb.maxBytes).take
        ((sb.buf ++ data.rtake sb.maxBytes).length - sb.maxBytes))) =
      some (nonWhitespace ((since ++ data).rtake sb.maxBytes)) := by
    rw [← hdr, ← nonWhitespace_take_drop]
    exact if_pos ((take_sublist _ _).countP_le)
  have hre : checkedSub (bytes ++ data).length ((since ++ data).rtake sb.maxBytes).length =
      some ((bytes ++ data).length - ((since ++ data).rtake sb.maxBytes).length) := by
    refine if_pos ?_
    rw [length_rtake, length_append, length_append]
    have hsi := hsu.length_le
    omega
  refine ⟨⟨(since ++ data).rtake sb.maxBytes, sb.maxBytes, _, (bytes ++ data).length,
      nonWhitespace ((since ++ data).rtake sb.maxBytes)⟩, ?_, rfl,
    ⟨rfl, rfl, h.evict hsu data, rfl⟩⟩
  have hta : (if sb.maxBytes < data.length then data.drop (data.length - sb.maxBytes) else data) =
      data.rtake sb.maxBytes := tailOf_eq sb.maxBytes data
  simp only [Option.bind_eq_bind, Option.bind_some, if_neg hze, hta, hst, hfo, hco, hsub, hdr, hre]

theorem Exact.clear : Exact bytes [] sb.clear :=
  ⟨h.offset_eq, (rtake_nil _).symm, rfl, rfl⟩

theorem Exact.framed (hs : since <:+ bytes) (maxBytes : ℕ) :
    ∃ chunk, sb.positionedSnapshot maxBytes = some chunk ∧ Framed bytes maxBytes sb chunk := by
  have hh : sb.buf.rtake maxBytes <:+ bytes := by
    rw [h.buf_eq]
    exact (drop_suffix _ _).trans ((drop_suffix _ _).trans hs)
  have hle := hh.length_le
  have hsub : checkedSub sb.streamOffset (sb.snapshotTail maxBytes).length =
      some (bytes.length - (sb.buf.rtake maxBytes).length) := by
    rw [h.offset_eq]
    exact if_pos hle
  refine ⟨⟨sb.buf.rtake maxBytes, bytes.length - (sb.buf.rtake maxBytes).length, bytes.length⟩, ?_,
    ?_⟩
  · rw [Scrollback.positionedSnapshot, hsub, h.offset_eq]
    rfl
  · refine ⟨rfl, rfl, Nat.sub_add_cancel hle, ?_⟩
    rw [extract_eq_take_drop, ← suffix_iff_eq_drop.mp hh]
    have hl : (sb.buf.rtake maxBytes).length ≤
        bytes.length - (bytes.length - (sb.buf.rtake maxBytes).length) := by
      omega
    exact take_of_length_le hl

end Push

/-! ## Every sequence of operations -/

section Run

variable {ops : List Op} {op : Op}

theorem stream_snoc (ops : List Op) (op : Op) : stream (ops ++ [op]) = stream ops ++ stream [op] :=
  flatMap_append

theorem sinceClear_snoc_push (ops : List Op) (data : List UInt8) :
    sinceClear (ops ++ [.push data]) = sinceClear ops ++ data := by
  rw [sinceClear, foldl_append]
  rfl

theorem sinceClear_snoc_clear (ops : List Op) : sinceClear (ops ++ [.clear]) = [] := by
  rw [sinceClear, foldl_append]
  rfl

theorem sinceClear_suffix (ops : List Op) : sinceClear ops <:+ stream ops := by
  induction ops using reverseRecOn with
  | nil => exact suffix_rfl
  | append_singleton ops op ih =>
    rw [stream_snoc]
    cases op with
    | push data =>
      rw [sinceClear_snoc_push, show stream [.push data] = data from append_nil data]
      obtain ⟨before, hb⟩ := ih
      exact ⟨before, by rw [← hb, append_assoc]⟩
    | clear =>
      rw [sinceClear_snoc_clear]
      exact nil_suffix

theorem run_snoc (sb : Scrollback) (ops : List Op) (op : Op) :
    run sb (ops ++ [op]) = (run sb ops).bind fun sb => step sb op := by
  rw [run, foldlM_append]
  congr 1
  funext sb
  simp

/-- While the stream's positions stay in the range, every operation ends and the ring is
exact. -/
theorem run_exact (maxBytes : ℕ) (ops : List Op) (hmax : (stream ops).length ≤ u64Max) :
    ∃ sb, run (.new maxBytes) ops = some sb ∧ sb.maxBytes = maxBytes ∧
      Exact (stream ops) (sinceClear ops) sb := by
  induction ops using reverseRecOn with
  | nil => exact ⟨.new maxBytes, rfl, rfl, rfl, (rtake_nil _).symm, rfl, rfl⟩
  | append_singleton ops op ih =>
    rw [stream_snoc] at hmax ⊢
    have hl : (stream ops).length ≤ u64Max := by
      rw [length_append] at hmax
      omega
    obtain ⟨sb, hrun, hcap, he⟩ := ih hl
    rw [run_snoc, hrun, Option.bind_some]
    cases op with
    | push data =>
      rw [show stream [.push data] = data from append_nil data] at hmax ⊢
      obtain ⟨sb', hp, hc', he'⟩ := he.push (sinceClear_suffix ops) hmax
      rw [sinceClear_snoc_push]
      exact ⟨sb', hp, hc'.trans hcap, he'⟩
    | clear =>
      rw [sinceClear_snoc_clear, show stream [.clear] = [] from rfl, append_nil]
      exact ⟨sb.clear, rfl, hcap, he.clear⟩

theorem run_overflow (maxBytes : ℕ) (ops : List Op) (hmax : u64Max < (stream ops).length) :
    run (.new maxBytes) ops = none := by
  induction ops using reverseRecOn with
  | nil => exact absurd hmax (not_lt_zero _)
  | append_singleton ops op ih =>
    rw [run_snoc]
    by_cases hl : u64Max < (stream ops).length
    · rw [ih hl]
      rfl
    obtain ⟨sb, hrun, -, he⟩ := run_exact maxBytes ops (Nat.le_of_not_lt hl)
    rw [hrun, Option.bind_some]
    rw [stream_snoc, length_append] at hmax
    cases op with
    | push data =>
      rw [show stream [.push data] = data from append_nil data] at hmax
      rw [step, Scrollback.push, he.offset_eq, checkedAdd_eq_none.mpr hmax]
      rfl
    | clear => exact absurd hmax hl

/-- The ring is exact after every sequence of operations whose output is at most `u64::MAX`
bytes, and it is at the push that passes this that the ring panics. -/
theorem ring_exact (maxBytes : ℕ) (ops : List Op) :
    ((stream ops).length ≤ u64Max → ∃ sb, run (.new maxBytes) ops = some sb ∧
      sb.maxBytes = maxBytes ∧ Exact (stream ops) (sinceClear ops) sb ∧
      ∀ count, ∃ chunk, sb.positionedSnapshot count = some chunk ∧
        Framed (stream ops) count sb chunk) ∧
    (u64Max < (stream ops).length → run (.new maxBytes) ops = none) := by
  refine ⟨fun hmax => ?_, run_overflow maxBytes ops⟩
  obtain ⟨sb, hrun, hcap, he⟩ := run_exact maxBytes ops hmax
  exact ⟨sb, hrun, hcap, he, he.framed (sinceClear_suffix ops)⟩

theorem run_three_chunks (maxBytes n : ℕ) (h : u64Max < n + n + n) :
    ∃ chunk : List UInt8, chunk.length = n ∧
      run (.new maxBytes) [.push chunk, .push chunk, .push chunk] = none := by
  refine ⟨replicate n 0, length_replicate, run_overflow maxBytes _ ?_⟩
  have hl : (stream [.push (replicate n 0), .push (replicate n 0), .push (replicate n 0)]).length =
      n + n + n := by
    simp [stream, add_assoc]
  rwa [hl]

/-- Three chunks of the largest size a slice has are more than the positions can count. -/
theorem ring_stops_counting : ∃ chunk : List UInt8, chunk.length = 2 ^ 63 - 1 ∧
      run (.new 1) [.push chunk, .push chunk, .push chunk] = none :=
  run_three_chunks 1 (2 ^ 63 - 1) (by decide)

example : (run (.new 4) [.push [104, 10, 32], .clear, .push [97, 10, 98, 10, 99]]).map
    (fun sb => (sb.buf, sb.newlines, sb.streamOffset, sb.nonWhitespaceBytes)) =
      some ([10, 98, 10, 99], [4, 6], 8, 2) := by decide

end Run

end Intentd.ScrollbackRing
