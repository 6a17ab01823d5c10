import Intentd.FoldedRuns
import Intentd.MachineWords
import Mathlib.Data.List.DropRight

/-!
# The capped log of a script run

A run's output goes to a log that is kept within a cap. A chunk that would pass the cap makes
the writer replace the log by its newest bytes and the chunk. If the replacement fails the old
log stays, and chunks are still appended up to twice the cap; what would pass that is left out.
The replacement is tried again after another quarter of the cap.

A failed file call disables the writer. Subtractions, sums and indices that the source leaves
unchecked are checked here.
-/
namespace Intentd.ScriptLog
open MachineWords List Bool

def maxFileBytes : ℕ := 2 ^ 63 - 1

structure LogFile where
  bytes : List UInt8
  fits : bytes.length ≤ maxFileBytes

def LogFile.clip (bytes : List UInt8) : LogFile := ⟨bytes.take maxFileBytes, length_take_le _ _⟩

/-- How the file calls of one append end. A write may fail after some of its bytes. -/
structure FileCalls where
  read : Bool
  write : Option ℕ
  replace : Bool

inductive Fault where
  | io
  | panic

structure CompactionRetry where
  credit : ℕ
  warned : Bool

/-- The writer of a run and the log at its path. A writer that is not enabled has lost its file. -/
structure RunOutputWriter where
  log : LogFile
  enabled : Bool
  len : ℕ
  cap : ℕ
  retry : CompactionRetry

open RunOutputWriter

def newline : UInt8 := 10

/-- The bytes after the first newline, unless it is the last byte or there is none. -/
def afterNewline (window : List UInt8) : List UInt8 :=
  match window.findIdx? (· = newline) with
  | some i => if i + 1 < window.length then window.drop (i + 1) else window
  | none => window

def newestBytesAtLineStart (read : Bool) (file : List UInt8) (len budget : ℕ) :
    Except Fault (List UInt8) :=
  if budget = 0 then .ok []
  else
    match checkedSub len budget with
    | none => .error .panic
    | some start =>
      let readFrom := start - 1
      let buf := (file.drop readFrom).take (len - readFrom)
      if !read then .error .io
      else if start = 0 then .ok buf
      else
        match buf with
        | [] => .error .panic
        | first :: window => .ok (if first = newline then window else afterNewline window)

def writeAll (write : Option ℕ) (file : LogFile) (chunk : List UInt8) : LogFile × Bool :=
  match write with
  | none => (.clip (file.bytes ++ chunk), (file.bytes ++ chunk).length ≤ maxFileBytes)
  | some k => (.clip (file.bytes ++ chunk.take k), false)

def replaceLog (replace : Bool) (contents : List UInt8) : Option LogFile :=
  if h : contents.length ≤ maxFileBytes then
    if replace then some ⟨contents, h⟩ else none
  else none

namespace RunOutputWriter

variable (calls : FileCalls)

def appendChunk (w : RunOutputWriter) (chunk : List UInt8) : RunOutputWriter × Except Fault Unit :=
  match writeAll calls.write w.log chunk with
  | (log, false) => ({ w with log := log }, .error .io)
  | (log, true) =>
    match checkedAdd w.len chunk.length with
    | none => ({ w with log := log }, .error .panic)
    | some len => ({ w with log := log, len := len }, .ok ())

/-- A chunk that passes the cap while the log cannot be replaced. -/
def appendOrDrop (fitsFallback : Bool) (w : RunOutputWriter) (chunk : List UInt8) :
    RunOutputWriter × Except Fault Unit :=
  if fitsFallback then w.appendChunk calls chunk else (w, .ok ())

def keptBefore (w : RunOutputWriter) (chunk : List UInt8) : Except Fault (List UInt8) :=
  if w.cap ≤ chunk.length then .ok []
  else
    match checkedSub w.cap chunk.length with
    | none => .error .panic
    | some room =>
      newestBytesAtLineStart calls.read w.log.bytes w.len (min (min (w.cap / 2) room) w.len)

def newestPart (cap : ℕ) (chunk : List UInt8) : List UInt8 :=
  if cap < chunk.length then chunk.drop (chunk.length - cap) else chunk

def writeCapped (w : RunOutputWriter) (chunk : List UInt8) : RunOutputWriter × Except Fault Unit :=
  let newLen := saturatingAdd w.len chunk.length
  if newLen ≤ w.cap then w.appendChunk calls chunk
  else
    let fitsFallback : Bool := newLen ≤ min (w.cap * 2) u64Max
    if 0 < w.retry.credit then
      appendOrDrop calls fitsFallback
        { w with retry := { w.retry with credit := w.retry.credit - chunk.length } } chunk
    else
      match w.keptBefore calls chunk with
      | .error e => (w, .error e)
      | .ok before =>
        match replaceLog calls.replace (before ++ newestPart w.cap chunk) with
        | some log =>
          ({ w with log := log, len := log.bytes.length, retry := { w.retry with credit := 0 } },
            .ok ())
        | none =>
          appendOrDrop calls fitsFallback { w with retry := ⟨max (w.cap / 4) 1, true⟩ } chunk

/-- The first error disables the writer; `none` is a panic. -/
def settle : RunOutputWriter × Except Fault Unit → Option RunOutputWriter
  | (w, .ok ()) => some w
  | (w, .error .io) => some { w with enabled := false }
  | (_, .error .panic) => none

def append (w : RunOutputWriter) (input : List UInt8 × FileCalls) : Option RunOutputWriter :=
  if input.1 = [] then some w
  else if !w.enabled then some w
  else settle (w.writeCapped input.2 input.1)

def disabled (log : LogFile) (cap : ℕ) : RunOutputWriter := ⟨log, false, 0, cap, ⟨0, false⟩⟩

/-- A writer for a run, on the log that is there. -/
def openWriter (cap : ℕ) (log : LogFile) (calls : FileCalls) : Option RunOutputWriter :=
  if cap < log.bytes.length then
    match newestBytesAtLineStart calls.read log.bytes log.bytes.length cap with
    | .error .panic => none
    | .error .io => some (disabled log cap)
    | .ok kept =>
      match replaceLog calls.replace kept with
      | some log' => some ⟨log', true, log'.bytes.length, cap, ⟨0, false⟩⟩
      | none => some ⟨log, true, log.bytes.length, cap, ⟨0, false⟩⟩
  else some ⟨log, true, log.bytes.length, cap, ⟨0, false⟩⟩

def compacts (w : RunOutputWriter) (chunk : List UInt8) : Bool :=
  chunk ≠ [] ∧ w.cap < saturatingAdd w.len chunk.length ∧ w.retry.credit = 0

end RunOutputWriter

/-! ## What one append does -/

variable {calls : FileCalls} {chunk : List UInt8} {w : RunOutputWriter}

theorem afterNewline_suffix (window : List UInt8) : afterNewline window <:+ window := by
  rw [afterNewline]
  split
  · split
    · exact drop_suffix _ _
    · exact suffix_rfl
  · exact suffix_rfl

theorem newestBytes_spec (read : Bool) (file : List UInt8) {budget : ℕ}
    (hb : budget ≤ file.length) :
    (∃ kept, newestBytesAtLineStart read file file.length budget = .ok kept ∧ kept <:+ file ∧
      kept.length ≤ budget) ∨
      read = false ∧ newestBytesAtLineStart read file file.length budget = .error .io := by
  rw [newestBytesAtLineStart]
  split
  · exact Or.inl ⟨[], rfl, nil_suffix, Nat.zero_le _⟩
  next hne =>
    rw [checkedSub, if_pos hb]
    dsimp only
    have hbuf : (file.drop (file.length - budget - 1)).take
        (file.length - (file.length - budget - 1)) =
        file.drop (file.length - budget - 1) := take_of_length_le (by rw [length_drop])
    rw [hbuf]
    cases read with
    | false => exact Or.inr ⟨rfl, rfl⟩
    | true =>
      left
      split
      next hr => cases hr
      next =>
      split
      next hst =>
        refine ⟨_, rfl, drop_suffix _ _, ?_⟩
        rw [length_drop]
        omega
      next hst =>
        have hl : (file.drop (file.length - budget - 1)).length = budget + 1 := by
          rw [length_drop]
          omega
        have hs := drop_suffix (file.length - budget - 1) file
        generalize file.drop (file.length - budget - 1) = buf at hl hs
        cases buf with
        | nil => cases hl
        | cons first window =>
          have hw := (suffix_cons first window).trans hs
          have hl : window.length = budget := by simpa using hl
          refine ⟨_, rfl, ?_, ?_⟩
          · split
            · exact hw
            · exact (afterNewline_suffix window).trans hw
          · split
            · exact hl.le
            · exact hl ▸ (afterNewline_suffix window).length_le

theorem newestPart_eq (cap : ℕ) (chunk : List UInt8) : newestPart cap chunk = chunk.rtake cap := by
  rw [newestPart, rtake]
  split
  · rfl
  next hle => rw [Nat.sub_eq_zero_of_le (Nat.le_of_not_lt hle), drop_zero]

theorem newestPart_suffix (cap : ℕ) (chunk : List UInt8) : newestPart cap chunk <:+ chunk :=
  newestPart_eq cap chunk ▸ drop_suffix _ _

theorem newestPart_length_le (cap : ℕ) (chunk : List UInt8) :
    (newestPart cap chunk).length ≤ cap := by
  rw [newestPart_eq, rtake, length_drop]
  omega

theorem keptBefore_spec (calls : FileCalls) (chunk : List UInt8)
    (hlen : w.len = w.log.bytes.length) :
    (∃ kept, w.keptBefore calls chunk = .ok kept ∧ kept <:+ w.log.bytes ∧
      (kept ++ newestPart w.cap chunk).length ≤ w.cap ∧ (kept = [] ∨ chunk.length ≤ w.cap)) ∨
    calls.read = false ∧ w.keptBefore calls chunk = .error .io := by
  have hp := newestPart_length_le w.cap chunk
  rw [keptBefore]
  split
  · exact Or.inl ⟨[], rfl, nil_suffix, hp, Or.inl rfl⟩
  next hr =>
    rw [checkedSub, if_pos (Nat.le_of_not_le hr)]
    rw [hlen]
    rcases newestBytes_spec calls.read w.log.bytes
      (Nat.min_le_right (min (w.cap / 2) (w.cap - chunk.length)) _) with
      ⟨kept, hk, hs, hle⟩ | hio
    · refine Or.inl ⟨kept, hk, hs, ?_, Or.inr (Nat.le_of_not_le hr)⟩
      have hc := (newestPart_suffix w.cap chunk).length_le
      rw [length_append]
      omega
    · exact Or.inr hio

def Late (w : RunOutputWriter) (calls : FileCalls) : Prop := 0 < w.retry.credit ∨
    calls.replace = false

theorem not_late (hc : w.retry.credit = 0) (hr : calls.replace = true) : ¬Late w calls := by
  rintro (hpos | hf)
  · omega
  · exact false_ne_true (hf.symm.trans hr)

inductive Appends (w : RunOutputWriter) (chunk : List UInt8) (calls : FileCalls)
    (w' : RunOutputWriter) : Prop
  | disabled (hoff : w'.enabled = false)
      (hcalls : calls.read = true → calls.write = none → maxFileBytes < w.len + chunk.length)
  | empty (hchunk : chunk = []) (hsame : w' = w)
  | grown (hon : w'.enabled = true) (hbytes : w'.log.bytes = w.log.bytes ++ chunk)
      (hlen : w'.len = w'.log.bytes.length)
      (hle : w'.len ≤ w.cap) (hcap : w'.cap = w.cap) (hretry : w'.retry = w.retry)
  | late (hon : w'.enabled = true) (hlate : Late w calls) (hcap : w'.cap = w.cap)
      (hlog : w'.log = w.log ∧ w'.len = w.len ∨
      w'.log.bytes = w.log.bytes ++ chunk ∧ w'.len = w'.log.bytes.length ∧ w'.len ≤ 2 * w.cap)
  | replaced (hon : w'.enabled = true) (kept : List UInt8) (hkept : kept <:+ w.log.bytes)
      (hbytes : w'.log.bytes = kept ++ chunk.rtake w.cap) (hlen : w'.len = w'.log.bytes.length)
      (hle : w'.len ≤ w.cap) (hcap : w'.cap = w.cap) (hcredit : w'.retry.credit = 0)
      (hrest : kept = [] ∨ chunk.rtake w.cap = chunk)

theorem appendChunk_settles (calls : FileCalls) (chunk : List UInt8)
    (hlen : w.len = w.log.bytes.length) :
    ∃ w', settle (w.appendChunk calls chunk) = some w' ∧
      (w'.enabled = false ∧ (calls.write = none → maxFileBytes < w.len + chunk.length) ∨
        w'.enabled = w.enabled ∧ w'.log.bytes = w.log.bytes ++ chunk ∧
          w'.len = w'.log.bytes.length ∧ w'.cap = w.cap ∧ w'.retry = w.retry) := by
  rw [appendChunk]
  cases hw : calls.write with
  | some k => exact ⟨_, rfl, Or.inl ⟨rfl, fun hn => (Option.some_ne_none _ hn).elim⟩⟩
  | none =>
    rw [writeAll]
    have hsum : w.len + chunk.length = (w.log.bytes ++ chunk).length := by rw [hlen, length_append]
    by_cases hf : (w.log.bytes ++ chunk).length ≤ maxFileBytes
    · have hb : (LogFile.clip (w.log.bytes ++ chunk)).bytes = w.log.bytes ++ chunk :=
        take_of_length_le hf
      have hmax : maxFileBytes ≤ u64Max := by decide
      rw [decide_eq_true hf]
      rw [checkedAdd, if_pos (by omega), hsum]
      exact ⟨_, rfl, Or.inr ⟨rfl, hb, congrArg length hb.symm, rfl, rfl⟩⟩
    · rw [decide_eq_false hf]
      exact ⟨_, rfl, Or.inl ⟨rfl, fun _ => hsum ▸ Nat.lt_of_not_le hf⟩⟩

theorem appendOrDrop_late (retry : CompactionRetry) (hon : w.enabled = true)
    (hlen : w.len = w.log.bytes.length) (hl : Late w calls) :
    ∃ w', settle (appendOrDrop calls
        (saturatingAdd w.len chunk.length ≤ min (w.cap * 2) u64Max) { w with retry := retry }
          chunk) = some w' ∧
      Appends w chunk calls w' := by
  rw [appendOrDrop]
  by_cases hf : saturatingAdd w.len chunk.length ≤ min (w.cap * 2) u64Max
  · rw [decide_eq_true hf, if_pos rfl]
    obtain ⟨w', hs, ⟨hoff, hc⟩ | ⟨hon', hb, hl', hcap, -⟩⟩ :=
      appendChunk_settles (w := { w with retry := retry }) calls chunk hlen
    · exact ⟨w', hs, .disabled hoff fun _ => hc⟩
    · refine ⟨w', hs, .late (hon'.trans hon) hl hcap (Or.inr ⟨hb, hl', ?_⟩)⟩
      -- the log is a file, so the sum is below the top of the range
      have hfi := w'.log.fits
      have hmax : maxFileBytes < u64Max := by decide
      have hsum := congrArg length hb
      rw [length_append] at hsum
      rw [saturatingAdd] at hf
      dsimp only at hsum
      omega
  · rw [decide_eq_false hf, if_neg Bool.false_ne_true]
    exact ⟨_, rfl, .late hon hl rfl (Or.inl ⟨rfl, rfl⟩)⟩

theorem appendOrDrop_full (retry : CompactionRetry) (hlen : w.len = w.log.bytes.length)
    (hl : maxFileBytes < w.cap) (ho : ¬saturatingAdd w.len chunk.length ≤ w.cap) :
    ∃ w', settle (appendOrDrop calls
        (saturatingAdd w.len chunk.length ≤ min (w.cap * 2) u64Max) { w with retry := retry }
          chunk) = some w' ∧
      Appends w chunk calls w' := by
  have htop : u64Max ≤ w.cap * 2 := by
    have hmax : u64Max ≤ (maxFileBytes + 1) * 2 := by decide
    omega
  have hf : saturatingAdd w.len chunk.length ≤ min (w.cap * 2) u64Max := by
    rw [saturatingAdd]
    omega
  have hfu : maxFileBytes < w.len + chunk.length := by
    rw [saturatingAdd] at ho
    omega
  rw [appendOrDrop, decide_eq_true hf, if_pos rfl]
  obtain ⟨w', hs, ⟨hoff, hc⟩ | ⟨-, hb, -⟩⟩ :=
    appendChunk_settles (w := { w with retry := retry }) calls chunk hlen
  · exact ⟨w', hs, .disabled hoff fun _ => hc⟩
  · have hfi := w'.log.fits
    have hsum := congrArg length hb
    rw [length_append] at hsum
    dsimp only at hsum
    omega

theorem append_step (w : RunOutputWriter) (chunk : List UInt8) (calls : FileCalls)
    (hon : w.enabled = true) (hlen : w.len = w.log.bytes.length) :
    ∃ w', w.append (chunk, calls) = some w' ∧ Appends w chunk calls w' := by
  rw [append]
  dsimp only
  split
  next hch => exact ⟨w, rfl, .empty hch rfl⟩
  next =>
  rw [if_neg (by rw [hon]; exact false_ne_true), writeCapped]
  split
  next hle =>
    obtain ⟨w', hse, ⟨hoff, hca⟩ | ⟨hon', hby, hle', hcap, hret⟩⟩ :=
      appendChunk_settles calls chunk hlen
    · exact ⟨w', hse, .disabled hoff fun _ => hca⟩
    · refine ⟨w', hse, .grown (hon'.trans hon) hby hle' ?_ hcap hret⟩
      have hfil := w'.log.fits
      have hmax : maxFileBytes < u64Max := by decide
      have hsum := congrArg length hby
      rw [length_append] at hsum
      rw [saturatingAdd] at hle
      omega
  next hov =>
  split
  next hcr => exact appendOrDrop_late _ hon hlen (Or.inl hcr)
  next hcr =>
  rcases keptBefore_spec calls chunk hlen with ⟨kept, hke, hsu, hle, hres⟩ | ⟨hrea, hio⟩
  · rw [hke]
    dsimp only
    rw [replaceLog]
    by_cases hfi : (kept ++ newestPart w.cap chunk).length ≤ maxFileBytes
    · rw [dif_pos hfi]
      cases hre : calls.replace with
      | true =>
        have hby := congrArg (kept ++ ·) (newestPart_eq w.cap chunk)
        refine ⟨_, rfl, .replaced hon kept hsu hby rfl hle rfl rfl (hres.imp_right fun hle => ?_)⟩
        rw [rtake, Nat.sub_eq_zero_of_le hle, drop_zero]
      | false => exact appendOrDrop_late _ hon hlen (Or.inr hre)
    · rw [dif_neg hfi]
      exact appendOrDrop_full _ hlen (by omega) hov
  · rw [hio]
    exact ⟨_, rfl, .disabled rfl fun hre' => absurd (hrea.symm.trans hre') false_ne_true⟩

/-! ## Runs -/

section Runs

def written (inputs : List (List UInt8 × FileCalls)) : List UInt8 := inputs.flatMap Prod.fst

/-- The file calls other than the replacement succeed. -/
def FileCalls.Good (calls : FileCalls) : Prop := calls.read = true ∧ calls.write = none

structure Holds (cap : ℕ) (old : LogFile) (opening : FileCalls)
    (inputs : List (List UInt8 × FileCalls)) (w : RunOutputWriter) : Prop where
  cap_eq : w.enabled = true → w.cap = cap
  enabled : opening.Good → (∀ input ∈ inputs, input.2.Good) →
    old.bytes.length + (written inputs).length ≤ maxFileBytes → w.enabled = true
  tracked : w.enabled = true → w.len = w.log.bytes.length
  shorter : w.enabled = true → w.len ≤ old.bytes.length + (written inputs).length
  newest : w.enabled = true → opening.replace = true → (∀ input ∈ inputs, input.2.replace = true) →
    w.retry.credit = 0 ∧ w.len ≤ cap ∧ w.log.bytes <:+ old.bytes ++ written inputs
  twice : w.enabled = true → old.bytes.length ≤ cap → w.len ≤ 2 * cap

variable {cap : ℕ} {old : LogFile} {opening : FileCalls} {inputs : List (List UInt8 × FileCalls)}
  {w' : RunOutputWriter}

theorem written_snoc (inputs : List (List UInt8 × FileCalls)) (chunk : List UInt8)
    (calls : FileCalls) : written (inputs ++ [(chunk, calls)]) = written inputs ++ chunk := by
  simp [written]

theorem Holds.off (hoff : w.enabled = false) (h : opening.Good → (∀ input ∈ inputs, input.2.Good) →
    old.bytes.length + (written inputs).length ≤ maxFileBytes → w.enabled = true) :
    Holds cap old opening inputs w := by
  have hne : ¬w.enabled = true := by
    rw [hoff]
    exact false_ne_true
  exact ⟨fun hon => absurd hon hne, h, fun hon => absurd hon hne, fun hon => absurd hon hne,
    fun hon => absurd hon hne, fun hon => absurd hon hne⟩

theorem holds_opened {log : LogFile} (hle : log.bytes.length ≤ old.bytes.length)
    (hnew : opening.replace = true → log.bytes.length ≤ cap ∧ log.bytes <:+ old.bytes)
    (htw : old.bytes.length ≤ cap → log.bytes.length ≤ 2 * cap) :
    Holds cap old opening [] ⟨log, true, log.bytes.length, cap, ⟨0, false⟩⟩ where
  cap_eq _ := rfl
  enabled _ _ _ := rfl
  tracked _ := rfl
  shorter _ := hle
  newest _ hre _ := ⟨rfl, (hnew hre).1, by simpa [written] using (hnew hre).2⟩
  twice _ := htw

theorem openWriter_holds (cap : ℕ) (old : LogFile) (opening : FileCalls) :
    ∃ w, openWriter cap old opening = some w ∧ Holds cap old opening [] w := by
  rw [openWriter]
  split
  next hl =>
    rcases newestBytes_spec opening.read old.bytes hl.le with ⟨kept, hk, hsu, hle⟩ | ⟨hre, hio⟩
    · have hf : kept.length ≤ maxFileBytes := hsu.length_le.trans old.fits
      rw [hk]
      dsimp only
      rw [replaceLog, dif_pos hf]
      cases hr : opening.replace with
      | true =>
        exact ⟨_, rfl,
          holds_opened hsu.length_le (fun _ => ⟨hle, hsu⟩) fun hs => absurd hl hs.not_gt⟩
      | false =>
        exact ⟨_, rfl, holds_opened le_rfl (by simp [hr]) fun hs => absurd hl hs.not_gt⟩
    · rw [hio]
      exact ⟨_, rfl, .off rfl fun hg => absurd (hre.symm.trans hg.1) false_ne_true⟩
  next hs =>
    have hle := Nat.le_of_not_lt hs
    exact ⟨_, rfl, holds_opened le_rfl (fun _ => ⟨hle, suffix_rfl⟩) fun _ => by omega⟩

theorem suffix_append {kept log part : List UInt8} {everything : List UInt8} (hk : kept <:+ log)
    (hlog : log <:+ everything) (hp : part <:+ chunk) (hr : kept = [] ∨ part = chunk) :
    kept ++ part <:+ everything ++ chunk := by
  rcases hr with rfl | rfl
  · exact hp.trans (List.suffix_append _ _)
  · obtain ⟨before, rfl⟩ := hk.trans hlog
    exact ⟨before, by rw [append_assoc]⟩

theorem Holds.step (h : Holds cap old opening inputs w) (hon : w.enabled = true)
    (hap : Appends w chunk calls w') : Holds cap old opening (inputs ++ [(chunk, calls)]) w' := by
  have hcap := h.cap_eq hon
  have htr := h.tracked hon
  have hsh := h.shorter hon
  have hleng : (written (inputs ++ [(chunk, calls)])).length = (written inputs).length +
      chunk.length := by
    rw [written_snoc, length_append]
  have hnew : opening.replace = true →
      (∀ input ∈ inputs ++ [(chunk, calls)], input.2.replace = true) →
      (w.retry.credit = 0 ∧ w.len ≤ cap ∧ w.log.bytes <:+ old.bytes ++ written inputs) ∧
        calls.replace = true := by
    intro hop hall
    rw [forall_mem_append, forall_mem_singleton] at hall
    exact ⟨h.newest hon hop hall.1, hall.2⟩
  cases hap with
  | disabled hoff hca =>
    refine .off hoff fun _ hall hfi => ?_
    rw [forall_mem_append, forall_mem_singleton] at hall
    have hlo := hca hall.2.1 hall.2.2
    omega
  | empty hch hsa =>
    subst hch hsa
    refine ⟨fun _ => hcap, fun _ _ _ => hon, fun _ => htr, fun _ => by omega,
      fun _ hop hall => ?_, h.twice⟩
    rw [written_snoc, append_nil]
    exact (hnew hop hall).1
  | grown hon' hby hlen hle hca' hret =>
    have hsum := congrArg length hby
    rw [length_append] at hsum
    refine ⟨fun _ => hca'.trans hcap, fun _ _ _ => hon', fun _ => hlen, fun _ => by omega,
      fun _ hop hall => ?_, fun _ _ => by omega⟩
    obtain ⟨⟨hcr, -, before, hbe⟩, -⟩ := hnew hop hall
    refine ⟨hret ▸ hcr, hcap ▸ hle, before, ?_⟩
    rw [hby, written_snoc, ← append_assoc, hbe, append_assoc]
  | late hon' hla hca' hlog =>
    have hne : opening.replace = true → ¬∀ input ∈ inputs ++ [(chunk, calls)],
        input.2.replace = true := by
      intro hop hall
      obtain ⟨⟨hcr, -⟩, hre⟩ := hnew hop hall
      exact not_late hcr hre hla
    rcases hlog with ⟨hsa, hlen⟩ | ⟨hby, hlen, hle⟩
    · exact ⟨fun _ => hca'.trans hcap, fun _ _ _ => hon', fun _ => by rw [hlen, hsa, htr],
        fun _ => by omega,
        fun _ hop hall => absurd hall (hne hop), fun _ hold => hlen ▸ h.twice hon hold⟩
    · have hsum := congrArg length hby
      rw [length_append] at hsum
      exact ⟨fun _ => hca'.trans hcap, fun _ _ _ => hon', fun _ => hlen, fun _ => by omega,
        fun _ hop hall => absurd hall (hne hop), fun _ _ => hcap ▸ hle⟩
  | replaced hon' kept hke hby hlen hle hca' hcr hres =>
    have hpa : chunk.rtake w.cap <:+ chunk := drop_suffix _ _
    have hsum := congrArg length hby
    have hkep := hke.length_le
    have hpar := hpa.length_le
    rw [length_append] at hsum
    refine ⟨fun _ => hca'.trans hcap, fun _ _ _ => hon', fun _ => hlen, fun _ => by omega,
      fun _ hop hall => ⟨hcr, hcap ▸ hle, ?_⟩, fun _ _ => by omega⟩
    rw [hby, written_snoc, ← append_assoc]
    exact suffix_append hke (hnew hop hall).1.2.2 hpa hres

theorem Holds.append (h : Holds cap old opening inputs w) (chunk : List UInt8) (calls : FileCalls) :
    ∃ w', w.append (chunk, calls) = some w' ∧
      Holds cap old opening (inputs ++ [(chunk, calls)]) w' ∧
      (w.enabled = true ∧ Appends w chunk calls w' ∨ w'.enabled = false) := by
  cases hon : w.enabled with
  | true =>
    obtain ⟨w', hap, ha⟩ := append_step w chunk calls hon (h.tracked hon)
    exact ⟨w', hap, h.step hon ha, Or.inl ⟨rfl, ha⟩⟩
  | false =>
    refine ⟨w, ?_, .off hon fun ho hall hf => ?_, Or.inr hon⟩
    · rw [RunOutputWriter.append, hon]
      exact ite_self _
    · rw [forall_mem_append] at hall
      rw [written_snoc, length_append] at hf
      exact h.enabled ho hall.1 (by omega)

theorem run_holds (cap : ℕ) (old : LogFile) (opening : FileCalls)
    (inputs : List (List UInt8 × FileCalls)) :
    ∃ w₀ w, openWriter cap old opening = some w₀ ∧
      inputs.foldlM append w₀ = some w ∧ Holds cap old opening inputs w := by
  obtain ⟨w₀, ho, hh⟩ := openWriter_holds cap old opening
  obtain ⟨w, hrun, hw⟩ :=
    FoldedRuns.run_history (J := Holds cap old opening) (fun before w input hJ => by
    obtain ⟨w', ha, hw', -⟩ := hJ.append input.1 input.2
    exact ⟨w', ha, hw'⟩) hh inputs
  exact ⟨w₀, w, ho, hrun, hw⟩

/-- The log after an append, in a run of any appends before it. -/
theorem log_stays_newest (cap : ℕ) (old : LogFile) (opening : FileCalls)
    (inputs : List (List UInt8 × FileCalls)) (chunk : List UInt8) (calls : FileCalls) :
    ∃ w₀ w w', openWriter cap old opening = some w₀ ∧
      inputs.foldlM append w₀ = some w ∧ w.append (chunk, calls) = some w' ∧
      (opening.Good → (∀ input ∈ inputs ++ [(chunk, calls)], input.2.Good) →
        old.bytes.length + (written inputs ++ chunk).length ≤ maxFileBytes → w'.enabled = true) ∧
      (w'.enabled = true →
        (opening.replace = true → (∀ input ∈ inputs ++ [(chunk, calls)], input.2.replace = true) →
          w'.log.bytes <:+ old.bytes ++ (written inputs ++ chunk) ∧ w'.log.bytes.length ≤ cap ∧
          chunk.rtake cap <:+ w'.log.bytes) ∧
        (old.bytes.length ≤ cap → w'.log.bytes.length ≤ 2 * cap ∧ w'.len = w'.log.bytes.length ∧
          (w.compacts chunk = true → calls.replace = true → w'.log.bytes.length ≤ cap))) := by
  obtain ⟨w₀, w, hope, hrun, hw⟩ := run_holds cap old opening inputs
  obtain ⟨w', happ, hw', hst⟩ := hw.append chunk calls
  have hgo := hw'.enabled
  rw [written_snoc] at hgo
  refine ⟨w₀, w, w', hope, hrun, happ, hgo, fun hon' => ?_⟩
  have htr := hw'.tracked hon'
  have hne := hw'.newest hon'
  rw [written_snoc] at hne
  obtain ⟨hon, hap⟩ := hst.resolve_right fun hoff => false_ne_true (hoff.symm.trans hon')
  have hcap := hw.cap_eq hon
  refine ⟨fun hop hall => ?_, fun hold => ⟨htr ▸ hw'.twice hon' hold, htr, fun hco hre => ?_⟩⟩
  · obtain ⟨hcr, hle, hsu⟩ := hne hop hall
    refine ⟨hsu, htr ▸ hle, ?_⟩
    have hpa : chunk.rtake cap <:+ chunk := drop_suffix _ _
    rw [forall_mem_append, forall_mem_singleton] at hall
    cases hap with
    | disabled hoff _ => exact absurd (hoff.symm.trans hon') false_ne_true
    | empty hch _ =>
      subst hch
      rw [suffix_nil.mp hpa]
      exact nil_suffix
    | grown _ hby _ _ _ _ => exact hby ▸ hpa.trans (List.suffix_append _ _)
    | late _ hla _ _ =>
      have hcr := (hw.newest hon hop hall.1).1
      exact absurd hla (not_late hcr hall.2)
    | replaced _ kept _ hby _ _ _ _ _ =>
      rw [hby, hcap]
      exact List.suffix_append _ _
  · rw [compacts, decide_eq_true_eq] at hco
    obtain ⟨hch, hov, hcr⟩ := hco
    cases hap with
    | disabled hoff _ => exact absurd (hoff.symm.trans hon') false_ne_true
    | empty hnil _ => exact absurd hnil hch
    | grown _ _ _ hle _ _ | replaced _ _ _ _ _ hle _ _ _ => exact htr ▸ hcap ▸ hle
    | late _ hla _ _ => exact absurd hla (not_late hcr hre)

end Runs

end Intentd.ScriptLog
