import Mathlib.Algebra.BigOperators.Group.List.Basic
import Mathlib.Algebra.GroupWithZero.Nat
import Mathlib.Data.List.Pairwise
import Mathlib.Data.List.Perm.Subperm
import Mathlib.Data.List.Sort
import Intentd.LabelledRuns

/-!
# Chunks of a staged upload

A chunk call reserves the bytes of its number under the lock of the registry, writes the chunk
file, and puts the size it had found back when the write fails. Others may use the room that a
smaller chunk frees before its write fails, and then the sizes add up to more than was declared.
-/
namespace Intentd.UploadChunks
open List LabelledRuns

def attachmentUploadMaxChunkBytes : ℕ := 16 * 1024 * 1024

structure AttachmentUploadSession where
  uploadId : String
  declaredSize : ℕ
  chunkSizes : List (ℕ × ℕ)
  nodup : (chunkSizes.map Prod.fst).Nodup
  committing : Bool

namespace AttachmentUploadSession

variable (s : AttachmentUploadSession)

def chunkSize (seq : ℕ) : Option ℕ := s.chunkSizes.lookup seq

def receivedBytes : ℕ := (s.chunkSizes.map Prod.snd).sum

/-- The size of a chunk is set, or removed. -/
def record (seq : ℕ) (size : Option ℕ) : AttachmentUploadSession :=
  { s with
    chunkSizes := (size.map (seq, ·)).toList ++ s.chunkSizes.filter (·.1 ≠ seq)
    nodup := by
      have hrest := s.nodup.sublist ((filter_sublist (p := (·.1 ≠ seq))).map Prod.fst)
      cases size <;> simpa using hrest }

/-- The part of `file_attachment_upload_chunk_op` before the write: the sizes, with that of the
chunk, and the size that was recorded for it. -/
def reserve (seq : ℕ) (bytes : List UInt8) : Except String (AttachmentUploadSession × Option ℕ) :=
  if bytes = [] then .error "chunk data is empty"
  else if attachmentUploadMaxChunkBytes < bytes.length then
    .error s!"chunk of {bytes.length} bytes exceeds the {attachmentUploadMaxChunkBytes} byte cap"
  else if s.committing then
    .error s!"upload {s.uploadId} is committing — chunks are no longer accepted"
  else
    let total := s.receivedBytes - (s.chunkSize seq).getD 0 + bytes.length
    if s.declaredSize < total then
      .error s!"received {total} bytes exceed the declared attachment size {s.declaredSize}"
    else .ok (s.record seq bytes.length, s.chunkSize seq)

end AttachmentUploadSession

/-- A session, the files of its chunks, and the calls that write: what each found and writes. -/
structure Upload where
  session : AttachmentUploadSession
  files : ℕ → Option (List UInt8)
  writing : ℕ → Option (Option ℕ × List UInt8)

def Upload.begin (uploadId : String) (declaredSize : ℕ) : Upload :=
  ⟨⟨uploadId, declaredSize, [], nodup_nil, false⟩, fun _ => none, fun _ => none⟩

inductive Label
  | chunk (seq : ℕ) (bytes : List UInt8)
  | written (seq : ℕ)
  | failed (seq : ℕ)

/-- A call begins when no other writes its chunk, and ends with its write. A refused call changes
nothing. -/
def next (u : Upload) : Label → Option Upload
  | .chunk seq bytes =>
    if (u.writing seq).isSome then none else
      match u.session.reserve seq bytes with
      | .error _ => some u
      | .ok (session, prior) =>
        some { u with session, writing := Function.update u.writing seq (some (prior, bytes)) }
  | .written seq => (u.writing seq).map fun call =>
      { u with
        files := Function.update u.files seq (some call.2)
        writing := Function.update u.writing seq none }
  | .failed seq => (u.writing seq).map fun call =>
      { u with
        session := u.session.record seq call.1
        writing := Function.update u.writing seq none }

def Step (u : Upload) (l : Label) (v : Upload) : Prop := next u l = some v

/-- No chunk is sent again with fewer bytes than are recorded for it. -/
def Grows (u : Upload) : Label → Prop
  | .chunk seq bytes => (u.session.chunkSize seq).getD 0 ≤ bytes.length
  | _ => True

open AttachmentUploadSession

variable {s : AttachmentUploadSession} {u v : Upload} {l : Label} {seq : ℕ}

theorem chunkSize_record (seq' : ℕ) (size : Option ℕ) :
    (s.record seq size).chunkSize seq' = if seq' = seq then size else s.chunkSize seq' := by
  have hr : (s.chunkSizes.filter (·.1 ≠ seq)).lookup seq' =
      if seq' = seq then none else s.chunkSizes.lookup seq' := by
    induction s.chunkSizes with
    | nil => simp
    | cons row rows ih => grind
  cases size <;> grind [chunkSize, record]

theorem sum_filter_lookup (seq : ℕ) {rows : List (ℕ × ℕ)} (hn : (rows.map Prod.fst).Nodup) :
    ((rows.filter (·.1 ≠ seq)).map Prod.snd).sum + (rows.lookup seq).getD 0 =
      (rows.map Prod.snd).sum := by
  induction rows with
  | nil => rfl
  | cons row rows ih =>
    obtain ⟨hrow, hn⟩ := nodup_cons.mp hn
    by_cases h : row.1 = seq
    · have hr : rows.filter (·.1 ≠ seq) = rows :=
        filter_eq_self.mpr fun x hx => by grind
      grind
    · grind

theorem receivedBytes_record (size : Option ℕ) :
    (s.record seq size).receivedBytes + (s.chunkSize seq).getD 0 = s.receivedBytes +
      size.getD 0 := by
  have := sum_filter_lookup seq s.nodup
  cases size <;> simp [record, receivedBytes, chunkSize] at this ⊢ <;> omega

/-- The recorded size of a chunk is that of its file, or that of what is written. -/
structure Inv (u : Upload) : Prop where
  idle : ∀ seq, u.writing seq = none → u.session.chunkSize seq = (u.files seq).map length
  busy : ∀ seq prior bytes, u.writing seq = some (prior, bytes) →
    u.session.chunkSize seq = some bytes.length ∧ prior = (u.files seq).map length

/-- What is reserved fits, and so does what a failed write puts back. -/
structure Bounded (declaredSize : ℕ) (u : Upload) : Prop where
  declared : u.session.declaredSize = declaredSize
  total : u.session.receivedBytes ≤ declaredSize
  grown : ∀ seq prior bytes, u.writing seq = some (prior, bytes) → prior.getD 0 ≤ bytes.length

theorem Inv.step (h : Inv u) (hst : Step u l v) :
    Inv v ∧ ∀ declaredSize, Bounded declaredSize u → Grows u l → Bounded declaredSize v := by
  have hid := h.idle
  have hbu := h.busy
  cases l with
  | chunk seq bytes =>
    simp only [Step, next, reserve] at hst
    split_ifs at hst with hwr h₁ h₂ h₃ hro <;> cases hst
    iterate 4 exact ⟨h, fun _ hbo _ => hbo⟩
    have hno : u.writing seq = none := by simpa using hwr
    constructor
    · constructor <;> grind [chunkSize_record]
    · intro declaredSize hbo hgro
      have hde := hbo.declared
      have hgr := hbo.grown
      have hto : (u.session.record seq bytes.length).receivedBytes ≤ declaredSize := by
        grind [receivedBytes_record]
      exact ⟨hde, hto, by grind [Grows]⟩
  | written seq =>
    obtain ⟨⟨prior, bytes⟩, hca, rfl⟩ := Option.map_eq_some_iff.mp hst
    constructor
    · constructor <;> grind
    · intro declaredSize hbo _
      have hgr := hbo.grown
      exact ⟨hbo.declared, hbo.total, by grind⟩
  | failed seq =>
    obtain ⟨⟨prior, bytes⟩, hca, rfl⟩ := Option.map_eq_some_iff.mp hst
    constructor
    · constructor <;> grind [chunkSize_record]
    · intro declaredSize hbo _
      have hgr := hbo.grown
      have hto : (u.session.record seq prior).receivedBytes ≤ declaredSize := by
        grind [receivedBytes_record, hbo.total]
      exact ⟨hbo.declared, hto, by grind⟩

theorem Inv.begin (uploadId : String) (declaredSize : ℕ) : Inv (.begin uploadId declaredSize) := by
  constructor <;> simp [Upload.begin, chunkSize]

/-- Whenever no call writes, the recorded sizes are those of the files. As long as no chunk is
sent again with fewer bytes, they never add up to more than was declared. -/
theorem reservations_bounded (uploadId : String) (declaredSize : ℕ) (labels : List Label)
    (u : Upload) :
    (Run Step (.begin uploadId declaredSize) labels u → (∀ seq, u.writing seq = none) →
      ∀ seq, u.session.chunkSize seq = (u.files seq).map length) ∧
    (Run (fun u l v => Step u l v ∧ Grows u l) (.begin uploadId declaredSize) labels u →
      u.session.receivedBytes ≤ declaredSize) := by
  have hb := Inv.begin uploadId declaredSize
  constructor
  · intro hrun hid seq
    have hinv : Inv u := hrun.invariant hb fun _ _ _ h hs => (h.step hs).1
    exact hinv.idle seq (hid seq)
  · intro hrun
    have hbo : Inv u ∧ Bounded declaredSize u := by
      refine hrun.invariant (I := fun u => Inv u ∧ Bounded declaredSize u) ⟨hb, ?_⟩ ?_
      · constructor <;> simp [Upload.begin, receivedBytes]
      · exact fun _ _ _ h hs =>
          ⟨(h.1.step hs.1).1, (h.1.step hs.1).2 declaredSize h.2 hs.2⟩
    exact hbo.2.total

/-- A chunk is sent again with as many bytes, and the write fails. -/
theorem reservations_bounded_retried : ∃ u, Run (fun u l v => Step u l v ∧ Grows u l)
    (.begin "a" 3) [.chunk 0 [1, 2], .written 0, .chunk 0 [3, 4], .chunk 1 [5], .failed 0] u ∧
      u.session.receivedBytes ≤ 3 := by
  obtain ⟨u, hrun⟩ : ∃ u, Run (fun u l v => Step u l v ∧ Grows u l) (.begin "a" 3)
      [.chunk 0 [1, 2], .written 0, .chunk 0 [3, 4], .chunk 1 [5], .failed 0] u :=
    ⟨_, .cons ⟨rfl, Nat.zero_le _⟩ <| .cons ⟨rfl, trivial⟩ <| .cons ⟨rfl, Nat.le_refl 2⟩ <|
      .cons ⟨rfl, Nat.zero_le _⟩ <| .cons ⟨rfl, trivial⟩ .nil⟩
  exact ⟨u, hrun, (reservations_bounded "a" 3 _ u).2 hrun⟩

/-- A chunk is sent again with fewer bytes, another takes the room, and the first write fails. -/
theorem failed_write_exceeds : ∃ u, Run Step (.begin "a" 3)
    [.chunk 0 [1, 2, 3], .written 0, .chunk 0 [1], .chunk 1 [4, 5], .failed 0] u ∧
      u.session.receivedBytes = 5 :=
  ⟨_, .of_foldlM (f := next) (fun _ _ _ h => h) rfl, rfl⟩

/-! ## Claims and assembly -/

section
variable (s : AttachmentUploadSession) (files : ℕ → Option (List UInt8))
  (sha256 : List UInt8 → String) (declaredSha256 : String)

def AttachmentUploadSession.seqs : List ℕ := (s.chunkSizes.map Prod.fst).mergeSort

/-- The part of `file_attachment_upload_commit_op` under the lock. -/
def claim : Except String (List ℕ) :=
  if s.committing then .error s!"upload {s.uploadId} is already committing"
  else if s.receivedBytes ≠ s.declaredSize then
    .error s!"attachment incomplete: received {s.receivedBytes} of {s.declaredSize} declared bytes"
  else if s.seqs.head? ≠ some 0 ∨ s.seqs.getLast? ≠ some (s.seqs.length - 1) then
    .error s!"chunk sequence has gaps: got seqs {s.seqs}, expected contiguous from 0"
  else .ok s.seqs

end

theorem lookup_of_mem {row : ℕ × ℕ} {rows : List (ℕ × ℕ)} (hn : (rows.map Prod.fst).Nodup)
    (hrow : row ∈ rows) : rows.lookup row.1 = some row.2 := by
  induction rows with
  | nil => simp at hrow
  | cons first rows ih => grind

/-- The files of the chunks, in the order of their numbers. -/
def payload (u : Upload) : List UInt8 := u.session.seqs.flatMap fun seq => (u.files seq).getD []

section
variable (h : Inv u) (hid : ∀ seq, u.writing seq = none)
include h hid

end

end Intentd.UploadChunks
