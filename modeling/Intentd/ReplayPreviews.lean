import Intentd.MachineWords

/-!
# Previews of tool bodies in a replay

A body that is longer than the cap is kept as its two ends around a line that says how much is
left out. A stored preview can be rendered again at a smaller cap: the line is looked for between
two halves of one length, with every number of digits it can have. A line with fewer digits would
have to name a far smaller number than the halves around it leave out.
-/
namespace Intentd.ReplayPreviews
open MachineWords List Nat

def truncationMarkerReserveChars : ℕ := 60

def markerFixedChars : ℕ := "\n... [ characters truncated] ...\n".length

def marker (omitted : ℕ) : List Char :=
  "\n... [".toList ++ toDigits 10 omitted ++ " characters truncated] ...\n".toList

def halfBudget (maxChars : ℕ) : ℕ := (maxChars - truncationMarkerReserveChars) / 2

/-- The ends of a text that has `originalChars` in all, and the line between them. -/
def ends (text : List Char) (originalChars half : ℕ) : List Char :=
  text.take half ++ marker (originalChars - half * 2) ++ text.drop (text.length - half)

def truncateMiddleContent (text : List Char) (maxChars : ℕ) : List Char :=
  if text.length ≤ maxChars then text
  else if halfBudget maxChars = 0 then text.take (min maxChars text.length)
  else ends text text.length (halfBudget maxChars)

def truncateMarked (text : List Char) (maxChars : ℕ) : List Char × Option ℕ :=
  if text.length ≤ maxChars then (text, none)
  else (truncateMiddleContent text maxChars, some text.length)

section Stored

variable (preview : List Char) (originalChars : ℕ)

/-- Half of what is around a line of this many digits, if the line is there. -/
def halfAround (digits rest : ℕ) : Option ℕ :=
  if rest % 2 ≠ 0 then none
  else
    match checkedSub originalChars (2 * (rest / 2)) with
    | none => none
    | some omitted =>
      if (marker omitted).length ≠ markerFixedChars + digits then none
      else if (preview.drop (rest / 2)).take (markerFixedChars + digits) = marker omitted then
        some (rest / 2)
      else none

/-- The loop over the numbers of digits. A preview too short for one is too short for the next. -/
def halfAmong : List ℕ → Option ℕ
  | [] => none
  | digits :: more =>
    match checkedSub preview.length (markerFixedChars + digits) with
    | none => none
    | some rest => (halfAround preview originalChars digits rest).or (halfAmong more)

def storedHalfBudget : Option ℕ := halfAmong preview originalChars (inclusive 1 20)

def retruncateReplayPreview (maxChars : ℕ) : List Char × Option ℕ :=
  if originalChars ≤ preview.length then truncateMarked preview maxChars
  else if originalChars ≤ maxChars then (preview, some originalChars)
  else
    match storedHalfBudget preview originalChars with
    | none => (preview, some originalChars)
    | some storedHalf =>
      if halfBudget maxChars = 0 then
        (if maxChars ≤ storedHalf then preview.take maxChars else preview, some originalChars)
      else if storedHalf < halfBudget maxChars then (preview, some originalChars)
      else (ends preview originalChars (halfBudget maxChars), some originalChars)

end Stored

/-- How `truncate_tool_content` renders a stored body, which is a preview if it has the number of
characters of its text with it. -/
def truncateToolContent (stored : List Char × Option ℕ) (maxChars : ℕ) : List Char × Option ℕ :=
  match stored.2 with
  | some originalChars => retruncateReplayPreview stored.1 originalChars maxChars
  | none => truncateMarked stored.1 maxChars

section Search

variable {preview text : List Char} {originalChars omitted c digits gap half : ℕ}

theorem length_marker (omitted : ℕ) :
    (marker omitted).length = markerFixedChars + (toDigits 10 omitted).length := by
  delta marker
  rw [length_append, length_append, Nat.add_right_comm]
  rfl

/-- A number that is smaller by `gap` has not `gap` digits less, for a gap of two or more. -/
theorem length_toDigits_sub_ne (hd : 0 < digits)
    (hlen : (toDigits 10 omitted).length = digits + (gap + 2)) :
    (toDigits 10 (omitted - (gap + 2))).length ≠ digits := by
  intro hf
  have hsm : omitted - (gap + 2) < 10 ^ digits :=
    (length_toDigits_le_iff (by decide) hd).mp hf.le
  have hl : 10 ^ (digits + (gap + 1)) ≤ omitted := by
    by_contra hlt
    have hle := (length_toDigits_le_iff (by decide) (by omega)).mpr (Nat.lt_of_not_le hlt)
    omega
  have hpow : gap + 1 ≤ 10 ^ gap := Nat.lt_pow_self (by decide)
  have hs : 10 * (10 ^ digits * (gap + 1)) ≤ omitted := by
    refine le_trans ?_ hl
    rw [Nat.pow_add, Nat.pow_succ', Nat.mul_left_comm]
    exact Nat.mul_le_mul_left _ (Nat.mul_le_mul_left _ hpow)
  have hg : gap + 1 ≤ 10 ^ digits * (gap + 1) := Nat.le_mul_of_pos_left _ (Nat.pow_pos (by decide))
  have hone : 10 ^ digits ≤ 10 ^ digits * (gap + 1) := Nat.le_mul_of_pos_right _ (by omega)
  omega

theorem halfAround_of_fewer (hd : 0 < digits) (hgap : 0 < gap)
    (hl : (toDigits 10 omitted).length = digits + gap) :
    halfAround preview (half * 2 + omitted) digits (half * 2 + gap) = none := by
  unfold halfAround
  split_ifs with hodd
  · rfl
  obtain ⟨gap, rfl⟩ : ∃ g, gap = g + 2 := ⟨gap - 2, by omega⟩
  rw [show 2 * ((half * 2 + (gap + 2)) / 2) = half * 2 + (gap + 2) by omega, checkedSub,
    Nat.add_sub_add_left]
  split_ifs with hle
  · dsimp only
    rw [length_marker, if_pos fun heq => length_toDigits_sub_ne hd hl (Nat.add_left_cancel heq)]
  · rfl

/-- Numbers of digits at which no line is found are passed over. -/
theorem halfAmong_append {before after : List ℕ}
    (hb : ∀ d ∈ before, ∃ rest, checkedSub preview.length (markerFixedChars + d) = some rest ∧
      halfAround preview originalChars d rest = none) :
    halfAmong preview originalChars (before ++ after) = halfAmong preview originalChars after := by
  induction before with
  | nil => rfl
  | cons d before ih =>
    obtain ⟨rest, hr, hn⟩ := hb d (mem_cons_self ..)
    rw [cons_append, halfAmong, hr]
    dsimp only
    rw [hn, Option.none_or]
    exact ih fun d hd => hb d (mem_cons_of_mem _ hd)

theorem checkedSub_of_eq {a b rest : ℕ} (h : a = rest + b) : checkedSub a b = some rest := by
  rw [checkedSub, h, if_pos (Nat.le_add_left ..), Nat.add_sub_cancel]

variable {start tail : List Char} (hstart : start.length = half) (htail : tail.length = half)
include hstart htail

theorem length_halves (omitted : ℕ) : (start ++ marker omitted ++ tail).length =
    half * 2 + (markerFixedChars + (toDigits 10 omitted).length) := by
  rw [length_append, length_append, length_marker, hstart, htail]
  omega

theorem storedHalfBudget_halves (hle : (toDigits 10 omitted).length ≤ 20) :
    storedHalfBudget (start ++ marker omitted ++ tail) (half * 2 + omitted) = some half := by
  have hl := length_halves hstart htail omitted
  have hm := length_marker omitted
  obtain ⟨fewer, hf⟩ := Nat.exists_eq_add_one.mpr (length_toDigits_pos (b := 10) (n := omitted))
  rw [hf] at hl hm
  have hs : inclusive 1 20 = range' 1 fewer ++ (fewer + 1) ::
      range' (fewer + 1 + 1) (19 - fewer) := by
    rw [← range'_succ, Nat.add_comm fewer 1, range'_append_1,
      show fewer + (19 - fewer + 1) = 20 by omega]
    rfl
  have hfo : halfAround (start ++ marker omitted ++ tail) (half * 2 + omitted)
      (fewer + 1) (half * 2) = some half := by
    unfold halfAround
    rw [if_neg (by omega), show half * 2 / 2 = half by omega,
      show checkedSub _ (2 * half) = some omitted from checkedSub_of_eq (by omega),
      append_assoc, drop_left' hstart, ← hm, take_left]
    simp
  rw [storedHalfBudget, hs, halfAmong_append, halfAmong, checkedSub_of_eq hl]
  · dsimp only
    rw [hfo]
    rfl
  · intro d hd
    rw [mem_range'_1] at hd
    refine ⟨half * 2 + (fewer + 1 - d), checkedSub_of_eq (by omega), ?_⟩
    exact halfAround_of_fewer (by omega) (by omega) (by omega)

/-- A preview is shorter than its text, so it renders from its halves. -/
theorem retruncateReplayPreview_halves (hle : (toDigits 10 omitted).length ≤ 20) (hm : 60 < omitted)
    (hlt : c < half * 2 + omitted) (hpos : 0 < halfBudget c) (hh : halfBudget c ≤ half) :
    retruncateReplayPreview (start ++ marker omitted ++ tail) (half * 2 + omitted) c =
      (start.take (halfBudget c) ++ marker (half * 2 + omitted - halfBudget c * 2) ++
        tail.drop (half - halfBudget c), some (half * 2 + omitted)) := by
  have hl := length_halves hstart htail omitted
  rw [show markerFixedChars = 33 from rfl] at hl
  unfold retruncateReplayPreview
  rw [if_neg (by omega), if_neg (by omega), storedHalfBudget_halves hstart htail hle]
  dsimp only
  rw [if_neg (by omega), if_neg (by omega), ends, length_append, htail, Nat.add_sub_assoc hh,
    drop_length_add_append, append_assoc start, take_append_of_le_length (by omega)]

end Search

/-- A preview of a text at a cap renders at a smaller one as the text does, and the line that is
found in it is the one that was put there. -/
theorem preview_renders_like_text {cap c : ℕ} (hc : 62 ≤ c) (hle : c ≤ cap) (text : List Char)
    (hfits : text.length ≤ u64Max) :
    truncateToolContent (truncateMarked text cap) c = truncateMarked text c ∧ (cap < text.length →
        storedHalfBudget (truncateMarked text cap).1 text.length = some (halfBudget cap) ∧
          ∃ start tail, start.length = halfBudget cap ∧
            (truncateMarked text cap).1 = start ++ marker (text.length - halfBudget cap * 2) ++
              tail) := by
  by_cases hlt : cap < text.length
  · have hb : ∀ cap, 62 ≤ cap → 0 < halfBudget cap ∧ halfBudget cap * 2 + 60 ≤ cap := by
      unfold halfBudget truncationMarkerReserveChars
      omega
    have hh : halfBudget c ≤ halfBudget cap := Nat.div_le_div_right (Nat.sub_le_sub_right hle _)
    have hm : ∀ cap, 62 ≤ cap → cap < text.length →
        truncateMarked text cap = (ends text text.length (halfBudget cap), some text.length) := by
      intro cap hcap hlt
      have hpos := (hb cap hcap).1
      rw [truncateMarked, if_neg (by omega), truncateMiddleContent, if_neg (by omega),
        if_neg (by omega)]
    have hr := (hb cap (by omega)).2
    rw [hm cap (by omega) hlt, hm c hc (by omega)]
    generalize halfBudget cap = half at *
    obtain ⟨omitted, ho⟩ : ∃ omitted, text.length = half * 2 + omitted :=
      ⟨text.length - half * 2, by omega⟩
    have hstart : (text.take half).length = half := length_take_of_le (by omega)
    have htail : (text.drop (text.length - half)).length = half := by
      rw [length_drop]
      omega
    have hd : (toDigits 10 omitted).length ≤ 20 :=
      (length_toDigits_le_iff (by decide) (by decide)).mpr
        (lt_of_le_of_lt (by omega) (by decide : u64Max < 10 ^ 20))
    rw [ho] at htail
    rw [ends, ends, ho, Nat.add_sub_cancel_left]
    refine ⟨?_, fun _ => ⟨storedHalfBudget_halves hstart htail hd, _, _, hstart, rfl⟩⟩
    refine (retruncateReplayPreview_halves hstart htail hd (by omega) (by omega)
      (hb c hc).1 hh).trans ?_
    rw [take_take, min_eq_left hh, drop_drop,
      show half * 2 + omitted - half + (half - halfBudget c) = half * 2 +
          omitted - halfBudget c by omega]
  · rw [truncateMarked, if_pos (by omega)]
    exact ⟨rfl, fun h => absurd h hlt⟩

/-- A text of three lines that look like the one of a preview. -/
theorem preview_renders_like_text_lookalike :
    let text := marker 2 ++ marker 2 ++ marker 2
    truncateToolContent (truncateMarked text 70) 62 = truncateMarked text 62 ∧
      storedHalfBudget (truncateMarked text 70).1 text.length = some 5 := by
  have hle : 62 ≤ 70 := by decide
  have hr :=
    preview_renders_like_text (le_refl 62) hle (marker 2 ++ marker 2 ++ marker 2) (by decide)
  exact ⟨hr.1, (hr.2 (by decide)).1⟩

end Intentd.ReplayPreviews
