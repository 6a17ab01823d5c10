import Mathlib.Data.List.Infix

/-!
# Numbered histories of which the newest part is kept

Entries are numbered from one as they come in, and only the newest of them are kept, up to a
bound. A reader asks for entries after the last number it has seen and gets the oldest of those
that are kept. What it has seen when it gets nothing ends with everything that is kept.
-/
namespace Intentd.NumberedHistories
open List

variable {α : Type}

def newest (max : ℕ) (history : List α) : List α := history.drop (history.length - max)

/-- Drop the oldest entries while there are too many, counting them. -/
def trim (max : ℕ) : List α → ℕ → List α × ℕ
  | [], evicted => ([], evicted)
  | a :: kept, evicted =>
    if max < kept.length + 1 then trim max kept (evicted + 1) else (a :: kept, evicted)

theorem trim_eq (max : ℕ) (kept : List α) (evicted : ℕ) :
    trim max kept evicted = (newest max kept, evicted + (kept.length - max)) := by
  induction kept generalizing evicted with
  | nil => simp [trim, newest]
  | cons a kept ih =>
    rw [trim, newest, length_cons]
    split_ifs with hmax
    · rw [ih, newest, show kept.length + 1 - max = kept.length - max + 1 by omega, drop_succ_cons,
        show evicted + 1 + (kept.length - max) = evicted + (kept.length - max + 1) by omega]
    · rw [show kept.length + 1 - max = 0 by omega, drop_zero, Nat.add_zero]

theorem length_newest (max : ℕ) (history : List α) :
    (newest max history).length = min history.length max := by
  rw [newest, length_drop]
  omega

theorem newest_snoc (max : ℕ) (history : List α) (a : α) :
    newest max (newest max history ++ [a]) = newest max (history ++ [a]) := by
  have hlen := length_newest max history
  rw [newest, newest.eq_1 max (history ++ [a]), length_append, length_append,
    length_singleton, hlen]
  by_cases hmax : max = 0
  · rw [drop_eq_nil_of_le (by simp [hlen]; omega), drop_eq_nil_of_le (by simp; omega)]
  · rw [drop_append_of_le_length (by omega), drop_append_of_le_length (by omega), newest, drop_drop]
    congr 2
    omega

variable {seq : α → ℕ} {max next evicted : ℕ} {history kept shown page rest : List α}

/-- What is kept of a numbered history, with the next number and the count of what was dropped. -/
structure Retains (seq : α → ℕ) (max : ℕ) (history kept : List α) (next evicted : ℕ) : Prop where
  numbered : history.map seq = List.range' 1 history.length
  next : next = history.length + 1
  newest : kept = newest max history
  counted : evicted + kept.length = history.length

theorem Retains.empty (seq : α → ℕ) (max : ℕ) : Retains seq max [] [] 1 0 :=
  ⟨rfl, rfl, by simp [NumberedHistories.newest], rfl⟩

variable {a : α}

section

variable (h : Retains seq max history kept next evicted)
include h

theorem Retains.push (ha : seq a = next) :
    Retains seq max (history ++ [a]) (trim max (kept ++ [a]) evicted).1 (next + 1)
      (trim max (kept ++ [a]) evicted).2 := by
  rw [trim_eq]
  refine ⟨?_, ?_, ?_, ?_⟩
  · rw [map_append, h.numbered, map_singleton, length_append, length_singleton, ha, h.next,
      List.range'_concat]
    simp [Nat.add_comm]
  · rw [h.next, length_append, length_singleton]
  · rw [h.newest, newest_snoc]
  · have hc := h.counted
    have hlen := length_newest max (kept ++ [a])
    rw [length_append, length_singleton] at hlen ⊢
    rw [length_append, length_singleton]
    dsimp only
    omega

theorem Retains.kept_numbers : kept.map seq = List.range' (evicted + 1) kept.length := by
  have hc := h.counted
  have hlen := length_newest max history
  rw [← h.newest] at hlen
  rw [h.newest, NumberedHistories.newest, map_drop, h.numbered, drop_range', length_drop]
  congr 1
  omega

theorem Retains.sorted : kept.Pairwise fun a b => seq a < seq b := by
  rw [← pairwise_map (f := seq), h.kept_numbers]
  exact pairwise_lt_range'

theorem Retains.lt_next (ha : a ∈ kept) : seq a < next := by
  have hmem : seq a ∈ kept.map seq := mem_map_of_mem ha
  rw [h.kept_numbers, mem_range'_1] at hmem
  have hc := h.counted
  have hn := h.next
  omega

theorem Retains.mem_kept (ha : a ∈ history) (hseq : evicted < seq a) : a ∈ kept := by
  have hs : history = history.take evicted ++ kept := by
    have hc := h.counted
    have hlen := length_newest max history
    rw [← h.newest] at hlen
    conv_lhs => rw [← take_append_drop (history.length - max) history]
    rw [h.newest, NumberedHistories.newest]
    congr 2
    omega
  rw [hs] at ha
  refine (mem_append.mp ha).resolve_left fun hold => ?_
  have hmem : seq a ∈ (history.take evicted).map seq := mem_map_of_mem hold
  rw [map_take, h.numbered] at hmem
  obtain ⟨i, hi, hse⟩ := mem_take_iff_getElem.mp hmem
  rw [getElem_range'] at hse
  omega

end

/-- What a reader has been shown up to a number. -/
structure Reads (seq : α → ℕ) (history kept : List α) (next after : ℕ) (shown : List α) : Prop where
  sorted : shown.Pairwise fun a b => seq a < seq b
  behind : ∀ a ∈ shown, seq a ≤ after
  known : after < next
  real : ∀ a ∈ shown, a ∈ history
  served : ∀ a ∈ kept, seq a ≤ after → a ∈ shown

variable {history' kept' : List α} {after next' : ℕ}

theorem Reads.start (seq : α → ℕ) (hn : 0 < next) (hpos : ∀ a ∈ kept, 0 < seq a) :
    Reads seq history kept next 0 [] :=
  ⟨.nil, nofun, hn, nofun, fun a ha hle => absurd (hpos a ha) (not_lt.mpr hle)⟩

theorem Reads.mono (h : Reads seq history kept next after shown)
    (hk : ∀ a ∈ kept', a ∈ kept ∨ next ≤ seq a)
    (hh : ∀ a ∈ history, a ∈ history') (hn : next ≤ next') :
    Reads seq history' kept' next' after shown where
  sorted := h.sorted
  behind := h.behind
  known := lt_of_lt_of_le h.known hn
  real a ha := hh a (h.real a ha)
  served a ha hle := by
    rcases hk a ha with hold | hnew
    · exact h.served a hold hle
    · exact absurd (lt_of_lt_of_le h.known hnew) (not_lt.mpr hle)

def lastSeq (seq : α → ℕ) (after : ℕ) (page : List α) : ℕ := (page.getLast?.map seq).getD after

theorem Reads.turn (h : Reads seq history kept next after shown)
    (hke : Retains seq max history kept next evicted)
    (hp : kept.filter (fun a => decide (after < seq a)) = page ++ rest) :
    Reads seq history kept next (lastSeq seq after page) (shown ++ page) := by
  have hs := hke.sorted.filter fun a => decide (after < seq a)
  rw [hp, pairwise_append] at hs
  have hmem : ∀ a ∈ page, a ∈ kept ∧ after < seq a := by
    intro a ha
    have hin : a ∈ kept.filter fun a => decide (after < seq a) := hp ▸ mem_append_left rest ha
    exact ⟨(mem_filter.mp hin).1, of_decide_eq_true (mem_filter.mp hin).2⟩
  rcases eq_nil_or_concat page with rfl | ⟨before, last, rfl⟩
  · rw [append_nil]
    exact h
  · rw [concat_eq_append] at *
    have hla : lastSeq seq after (before ++ [last]) = seq last := by simp [lastSeq]
    have hin := hmem last (mem_append_right _ (mem_singleton.mpr rfl))
    have hbe := (pairwise_append.mp hs.1).2.2
    rw [hla]
    refine ⟨pairwise_append.mpr ⟨h.sorted, hs.1, fun a ha b hb => ?_⟩, fun a ha => ?_,
      hke.lt_next hin.1, fun a ha => ?_, fun a ha hle => ?_⟩
    · exact lt_of_le_of_lt (h.behind a ha) (hmem b hb).2
    · rcases mem_append.mp ha with hold | hnew
      · exact le_of_lt (lt_of_le_of_lt (h.behind a hold) hin.2)
      · rcases mem_append.mp hnew with hb | hl
        · exact le_of_lt (hbe a hb last (mem_singleton.mpr rfl))
        · rw [mem_singleton.mp hl]
    · rcases mem_append.mp ha with hold | hnew
      · exact h.real a hold
      · have hk := (hmem a hnew).1
        rw [hke.newest] at hk
        exact mem_of_mem_drop hk
    · -- what is kept up to the last number was shown before or is on the page
      by_cases haf : seq a ≤ after
      · exact mem_append_left _ (h.served a ha haf)
      · have hf : a ∈ (before ++ [last]) ++ rest :=
          hp ▸ mem_filter.mpr ⟨ha, decide_eq_true (not_le.mp haf)⟩
        rcases mem_append.mp hf with hon | hr
        · exact mem_append_right _ hon
        · exact absurd (hs.2.2 last (by simp) a hr) (not_lt.mpr hle)

/-- A reader for whom nothing is left has been shown all that is kept, each entry once. -/
theorem Reads.complete (h : Reads seq history kept next after shown)
    (hk : Retains seq max history kept next evicted)
    (hend : kept.filter (fun a => decide (after < seq a)) = []) :
    shown.filter (fun a => decide (evicted < seq a)) = kept := by
  have hsh := h.sorted.filter fun a => decide (evicted < seq a)
  have hn {entries : List α} (hs : entries.Pairwise fun a b => seq a < seq b) : entries.Nodup :=
    hs.imp fun {a b} hlt (heq : a = b) => absurd hlt (heq ▸ lt_irrefl _)
  have hp : (shown.filter fun a => decide (evicted < seq a)).Perm kept := by
    refine (perm_ext_iff_of_nodup (hn hsh) (hn hk.sorted)).mpr fun a => ?_
    rw [mem_filter]
    constructor
    · rintro ⟨ha, hseq⟩
      exact hk.mem_kept (h.real a ha) (of_decide_eq_true hseq)
    · intro ha
      have hseq : seq a ∈ kept.map seq := mem_map_of_mem ha
      rw [hk.kept_numbers, mem_range'_1] at hseq
      refine ⟨h.served a ha (not_lt.mp fun haf => ?_), decide_eq_true (by omega)⟩
      exact filter_eq_nil_iff.mp hend a ha (decide_eq_true haf)
  refine hp.eq_of_pairwise (fun a b _ _ hab hba => absurd hab (lt_asymm hba)) hsh hk.sorted

end Intentd.NumberedHistories
