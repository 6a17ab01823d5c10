import Mathlib.Algebra.Group.Nat.Defs
import Mathlib.Data.List.Range

/-!
# Sixty-four bit counters as natural numbers

A counter is a natural number; the operations that meet the top of the range
say so, as `checked_add`, `saturating_add` and the inclusive range of Rust do,
and so does parsing a decimal text.
-/
namespace Intentd.MachineWords
open List Nat

def u64Max : ℕ := 2 ^ 64 - 1

def checkedAdd (a b : ℕ) : Option ℕ := if a + b ≤ u64Max then some (a + b) else none

def saturatingAdd (a b : ℕ) : ℕ := min (a + b) u64Max

def checkedSub (a b : ℕ) : Option ℕ := if b ≤ a then some (a - b) else none

/-- What an atomic `fetch_add` leaves, which wraps at the top of the range. -/
def wrappingAdd (a b : ℕ) : ℕ := (a + b) % (u64Max + 1)

def wrappingSub (a b : ℕ) : ℕ := (a + (u64Max + 1) - b) % (u64Max + 1)

/-- The value of a text of decimal digits, if it is in range. -/
def parseU64 (text : String) : Option ℕ :=
  if text.toList.isEmpty || !text.toList.all Char.isDigit then none
  else
    let value := ofDigitChars 10 text.toList 0
    if value ≤ u64Max then some value else none

def inclusive (a b : ℕ) : List ℕ := range' a (b + 1 - a)

variable {a b n : ℕ}

theorem wrappingAdd_eq (h : a + b ≤ u64Max) : wrappingAdd a b = a + b :=
  mod_eq_of_lt (lt_succ_of_le h)

theorem wrappingSub_eq (h : b ≤ a) (ha : a ≤ u64Max) : wrappingSub a b = a - b := by
  rw [wrappingSub, show a + (u64Max + 1) - b = a - b + (u64Max + 1) by omega, add_mod_right]
  exact mod_eq_of_lt (by omega)

-- the range is no number to compute with when terms are compared
attribute [irreducible] wrappingAdd wrappingSub

theorem checkedAdd_eq_some {c : ℕ} : checkedAdd a b = some c ↔ a + b = c ∧ c ≤ u64Max := by
  unfold checkedAdd
  split_ifs with h
  · simp only [Option.some.injEq]
    exact ⟨fun hc => ⟨hc, hc ▸ h⟩, fun hc => hc.1⟩
  · simp only [false_iff, not_and]
    rintro rfl
    exact h

theorem checkedAdd_eq_none : checkedAdd a b = none ↔ u64Max < a + b := by
  unfold checkedAdd
  split_ifs with h <;> simpa using h

theorem saturatingAdd_of_lt (h : a < u64Max) : saturatingAdd a 1 = a + 1 := by
  unfold saturatingAdd
  omega

@[simp] theorem mem_inclusive : n ∈ inclusive a b ↔ a ≤ n ∧ n ≤ b := by
  unfold inclusive
  rw [mem_range'_1]
  omega

theorem inclusive_eq_nil (h : b < a) : inclusive a b = [] := by
  unfold inclusive
  rw [Nat.sub_eq_zero_of_le h]
  rfl

theorem inclusive_cons (h : a ≤ b) : inclusive a b = a :: inclusive (a + 1) b := by
  unfold inclusive
  rw [show b + 1 - a = (b + 1 - (a + 1)) + 1 by omega, range'_succ]

theorem inclusive_snoc (h : a ≤ b + 1) : inclusive a (b + 1) = inclusive a b ++ [b + 1] := by
  unfold inclusive
  rw [show b + 1 + 1 - a = (b + 1 - a) + 1 by omega, range'_concat]
  simp only [one_mul, append_cancel_left_eq, List.cons.injEq, and_true]
  omega

theorem inclusive_pairwise (a b : ℕ) : (inclusive a b).Pairwise (· < ·) :=
  pairwise_lt_range'

theorem parseU64_repr_cases (n : ℕ) :
    parseU64 n.repr = some n ∨ parseU64 n.repr = none ∧ u64Max < n := by
  have hne : (toDigits 10 n).isEmpty = false := by simp
  have hd : (toDigits 10 n).all Char.isDigit = true := by
    rw [all_eq_true]
    exact fun c hc => isDigit_of_mem_toDigits (by omega) (by omega) hc
  have hv := ofDigitChars_toDigits (n := n) (b := 10) (by omega) (by omega)
  by_cases h : n ≤ u64Max
  · exact .inl (by simp [parseU64, hne, hd, hv, h])
  · exact .inr ⟨by simp [parseU64, hne, hd, hv, h], Nat.lt_of_not_le h⟩

theorem parseU64_repr (h : n ≤ u64Max) : parseU64 n.repr = some n :=
  (parseU64_repr_cases n).resolve_right fun hl => absurd h (Nat.not_le_of_lt hl.2)

theorem parseU64_le {text : String} (h : parseU64 text = some n) : n ≤ u64Max := by
  unfold parseU64 at h
  simp only [Option.ite_none_left_eq_some, Option.ite_none_right_eq_some] at h
  obtain ⟨-, hle, heq⟩ := h
  rwa [← Option.some.inj heq]

end Intentd.MachineWords
