import Mathlib.Algebra.BigOperators.Group.List.Basic
import Mathlib.Algebra.GroupWithZero.Nat

/-!
# Texts and their bytes

A text is a list of characters. Offsets into it count bytes of its UTF-8 form, and an offset is
a character boundary when some characters end there. A text also has a size inside a JSON
string, where some characters are escaped.

Texts are cut at a byte offset, or at the last or first character that still fits a size.
-/
namespace Intentd.ByteTexts
open List

def byteLen (text : List Char) : ℕ := (text.map Char.utf8Size).sum

/-- The characters before and after a byte offset, if it is a boundary. -/
def splitAtByte : ℕ → List Char → Option (List Char × List Char)
  | 0, text => some ([], text)
  | _ + 1, [] => none
  | n + 1, c :: text =>
    if c.utf8Size ≤ n + 1 then (splitAtByte (n + 1 - c.utf8Size) text).map fun p =>
      (c :: p.1, p.2) else none

/-- Bytes of a character inside a JSON string. -/
def jsonEscapedLen (c : Char) : ℕ :=
  if c ∈ ['"', '\\', '\n', '\r', '\t', '\x08', '\x0c'] then 2
  else if c.toNat < 0x20 then 6
  else c.utf8Size

def escapedLen (text : List Char) : ℕ := (text.map jsonEscapedLen).sum

section Sizes

variable (text more : List Char) (c : Char)

@[simp] theorem byteLen_nil : byteLen [] = 0 := rfl

@[simp] theorem byteLen_cons : byteLen (c :: text) = c.utf8Size + byteLen text := by
  simp [byteLen]

@[simp] theorem byteLen_append : byteLen (text ++ more) = byteLen text + byteLen more := by
  simp [byteLen]

@[simp] theorem escapedLen_nil : escapedLen [] = 0 := rfl

@[simp] theorem escapedLen_cons : escapedLen (c :: text) = jsonEscapedLen c + escapedLen text := by
  simp [escapedLen]

@[simp] theorem escapedLen_append :
    escapedLen (text ++ more) = escapedLen text + escapedLen more := by
  simp [escapedLen]

theorem jsonEscapedLen_pos : 0 < jsonEscapedLen c := by
  have hs := c.utf8Size_pos
  rw [jsonEscapedLen]
  split_ifs <;> omega

theorem jsonEscapedLen_le : jsonEscapedLen c ≤ 6 := by
  have hs := c.utf8Size_le_four
  rw [jsonEscapedLen]
  split_ifs <;> omega

variable {text more c}

theorem byteLen_eq_zero : byteLen text = 0 ↔ text = [] := by
  cases text with
  | nil => simp
  | cons c text =>
    have hpos := c.utf8Size_pos
    simp
    omega

theorem byteLen_pos (h : text ≠ []) : 0 < byteLen text :=
  Nat.pos_of_ne_zero fun hz => h (byteLen_eq_zero.mp hz)

end Sizes

section Split

variable {text before after : List Char} {n : ℕ}

theorem splitAtByte_append (before after : List Char) :
    splitAtByte (byteLen before) (before ++ after) = some (before, after) := by
  induction before with
  | nil => simp [splitAtByte]
  | cons c before ih =>
    have hpos := c.utf8Size_pos
    obtain ⟨n, hn⟩ : ∃ n, byteLen (c :: before) = n + 1 :=
      ⟨byteLen (c :: before) - 1, by simp; omega⟩
    have hr : n + 1 - c.utf8Size = byteLen before := by
      rw [← hn, byteLen_cons]
      omega
    have hle : c.utf8Size ≤ n + 1 := by
      rw [← hn, byteLen_cons]
      omega
    rw [hn, cons_append, splitAtByte, if_pos hle, hr, ih]
    rfl

theorem splitAtByte_eq_some :
    splitAtByte n text = some (before, after) ↔ text = before ++ after ∧ byteLen before = n := by
  constructor
  · intro h
    induction text generalizing n before after with
    | nil =>
      cases n with
      | zero =>
        cases h
        exact ⟨rfl, rfl⟩
      | succ n => cases h
    | cons c text ih =>
      cases n with
      | zero =>
        cases h
        exact ⟨rfl, rfl⟩
      | succ n =>
        rw [splitAtByte] at h
        split at h
        next hle =>
          obtain ⟨⟨before', after'⟩, hs, hp⟩ := Option.map_eq_some_iff.mp h
          obtain ⟨rfl, rfl⟩ := Prod.mk.inj hp
          obtain ⟨ht, hlen⟩ := ih hs
          refine ⟨by rw [ht]; rfl, ?_⟩
          rw [byteLen_cons, hlen]
          omega
        next => cases h
  · rintro ⟨rfl, rfl⟩
    exact splitAtByte_append before after

end Split

/-! ## Pieces between separators -/

section Pieces

variable {α : Type} [BEq α]

theorem splitOn_append (a : α) (xs ys : List α) :
    ∃ init last m ms, xs.splitOn a = init ++ [last] ∧ ys.splitOn a = m :: ms ∧
      (xs ++ ys).splitOn a = init ++ (last ++ m) :: ms := by
  obtain ⟨m, ms, hys⟩ := exists_cons_of_ne_nil (splitOn_ne_nil a ys)
  induction xs with
  | nil => exact ⟨[], [], m, ms, splitOn_nil a, hys, hys⟩
  | cons x xs ih =>
    obtain ⟨init, last, m', ms', hxs, hys', hb⟩ := ih
    obtain ⟨rfl, rfl⟩ := List.cons.inj (hys.symm.trans hys')
    rw [cons_append, splitOn_cons_eq_if_modifyHead, splitOn_cons_eq_if_modifyHead, hxs, hb]
    cases hx : x == a with
    | true => exact ⟨[] :: init, last, m, ms, rfl, hys, rfl⟩
    | false =>
      cases init with
      | nil => exact ⟨[], x :: last, m, ms, rfl, hys, rfl⟩
      | cons i init => exact ⟨(x :: i) :: init, last, m, ms, rfl, hys, rfl⟩

theorem length_splitOn (a : α) (xs : List α) : (xs.splitOn a).length = xs.count a + 1 := by
  induction xs with
  | nil => rw [splitOn_nil]; rfl
  | cons x xs ih =>
    rw [splitOn_cons_eq_if_modifyHead, count_cons]
    cases x == a with
    | true => rw [if_pos rfl, if_pos rfl, length_cons, ih]
    | false =>
      rw [if_neg Bool.false_ne_true, if_neg Bool.false_ne_true, length_modifyHead, ih, Nat.add_zero]

theorem not_mem_of_mem_splitOn [LawfulBEq α] {a : α} {xs piece : List α}
    (h : piece ∈ xs.splitOn a) : a ∉ piece := by
  induction xs generalizing piece with
  | nil =>
    rw [splitOn_nil, mem_singleton] at h
    rw [h]
    exact not_mem_nil
  | cons x xs ih =>
    rw [splitOn_cons_eq_if_modifyHead] at h
    split at h
    · rcases mem_cons.mp h with rfl | hmem
      · exact not_mem_nil
      · exact ih hmem
    next hx =>
      obtain ⟨m, ms, hxs⟩ := exists_cons_of_ne_nil (splitOn_ne_nil a xs)
      rw [hxs] at h ih
      rcases mem_cons.mp h with rfl | hmem
      · rw [mem_cons, not_or]
        exact ⟨fun heq => hx (beq_iff_eq.mpr heq.symm), ih mem_cons_self⟩
      · exact ih (mem_cons_of_mem m hmem)

end Pieces

end Intentd.ByteTexts
