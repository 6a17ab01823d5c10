import Mathlib.Data.List.Basic

/-!
# Edits of spans

An edit puts a replacement in the place of a span of a list. Edits that are in order and do
not overlap are applied from left to right, with what lies between them copied.

Edits may be taken together: a group of edits inside one span acts as one edit of that span,
whose replacement is the span after the edits of the group.
-/
namespace Intentd.SpanEdits
open List

structure Edit (α : Type) where
  start : ℕ
  stop : ℕ
  replacement : List α

structure Group (α : Type) where
  start : ℕ
  stop : ℕ
  edits : List (Edit α)

variable {α : Type}

structure Fits (stop pos : ℕ) (edits : List (Edit α)) : Prop where
  le : pos ≤ stop
  inside : ∀ e ∈ edits, pos ≤ e.start ∧ e.start ≤ e.stop ∧ e.stop ≤ stop
  ordered : edits.Pairwise fun a b => a.stop ≤ b.start

section Fits

variable {stop pos mid : ℕ} {e : Edit α} {edits more : List (Edit α)}

theorem Fits.tail (h : Fits stop pos (e :: edits)) : Fits stop e.stop edits := by
  obtain ⟨hb, hr⟩ := pairwise_cons.mp h.ordered
  obtain ⟨hfi, hin⟩ := forall_mem_cons.mp h.inside
  exact ⟨hfi.2.2, fun f hf => ⟨hb f hf, (hin f hf).2⟩, hr⟩

theorem Fits.head (h : Fits stop pos (e :: edits)) :
    pos ≤ e.start ∧ e.start ≤ e.stop ∧ e.stop ≤ stop :=
  h.inside e mem_cons_self

theorem Fits.append (h : Fits mid pos edits) (h' : Fits stop mid more) :
    Fits stop pos (edits ++ more) := by
  refine ⟨Nat.le_trans h.le h'.le, fun e he => ?_, pairwise_append.mpr ⟨h.ordered, h'.ordered, ?_⟩⟩
  · rcases mem_append.mp he with he | he
    · have hin := h.inside e he
      exact ⟨hin.1, hin.2.1, Nat.le_trans hin.2.2 h'.le⟩
    · have hin := h'.inside e he
      exact ⟨Nat.le_trans h.le hin.1, hin.2⟩
  · intro a ha b hb
    exact Nat.le_trans (h.inside a ha).2.2 (h'.inside b hb).1

end Fits

variable (base : List α)

/-- The base from `pos` to `stop` with edits applied. -/
def applyWithin (stop : ℕ) : ℕ → List (Edit α) → List α
  | pos, [] => base.extract pos stop
  | pos, e :: edits => base.extract pos e.start ++ e.replacement ++ applyWithin stop e.stop edits

def spell (edits : List (Edit α)) : List α := applyWithin base base.length 0 edits

theorem extract_append {a b c : ℕ} (hab : a ≤ b) (hbc : b ≤ c) :
    base.extract a c = base.extract a b ++ base.extract b c := by
  simp only [extract_eq_take_drop]
  have hsum : c - a = (b - a) + (c - b) := by omega
  rw [hsum, take_add, drop_drop, Nat.add_sub_cancel' hab]

variable {base} {stop pos mid : ℕ} {edits more : List (Edit α)}

theorem applyWithin_gap (hpos : pos ≤ mid) (h : Fits stop mid edits) :
    applyWithin base stop pos edits = base.extract pos mid ++ applyWithin base stop mid edits := by
  cases edits with
  | nil => exact extract_append base hpos h.le
  | cons e edits =>
    rw [applyWithin, applyWithin, extract_append base hpos h.head.1]
    simp only [append_assoc]

theorem applyWithin_append (h : Fits mid pos edits) (h' : Fits stop mid more) :
    applyWithin base stop pos (edits ++ more) =
      applyWithin base mid pos edits ++ applyWithin base stop mid more := by
  induction edits generalizing pos with
  | nil => exact applyWithin_gap h.le h'
  | cons e edits ih =>
    rw [cons_append, applyWithin, applyWithin, ih h.tail]
    simp only [append_assoc]

def Group.edit (base : List α) (g : Group α) : Edit α :=
  ⟨g.start, g.stop, applyWithin base g.stop g.start g.edits⟩

variable {groups : List (Group α)}

theorem Fits.flatMap (h : Fits stop pos (groups.map (Group.edit base)))
    (hgr : ∀ g ∈ groups, Fits g.stop g.start g.edits) :
    Fits stop pos (groups.flatMap Group.edits) := by
  induction groups generalizing pos with
  | nil => exact ⟨h.le, by simp, by simp⟩
  | cons g groups ih =>
    obtain ⟨hg, hr⟩ := forall_mem_cons.mp hgr
    have hnil : Fits g.start pos ([] : List (Edit α)) := ⟨h.head.1, by simp, by simp⟩
    exact (hnil.append hg).append (ih h.tail hr)

theorem applyWithin_groups (h : Fits stop pos (groups.map (Group.edit base)))
    (hgr : ∀ g ∈ groups, Fits g.stop g.start g.edits) :
    applyWithin base stop pos (groups.flatMap Group.edits) =
      applyWithin base stop pos (groups.map (Group.edit base)) := by
  induction groups generalizing pos with
  | nil => rfl
  | cons g groups ih =>
    obtain ⟨hg, hr⟩ := forall_mem_cons.mp hgr
    have hl : Fits stop g.stop (groups.flatMap Group.edits) := Fits.flatMap h.tail hr
    have hpos : pos ≤ g.start := h.head.1
    have ht : Fits stop g.stop (groups.map (Group.edit base)) := h.tail
    rw [flatMap_cons, applyWithin_gap hpos (hg.append hl), applyWithin_append hg hl,
      ih ht hr, ← append_assoc]
    rfl

end Intentd.SpanEdits
