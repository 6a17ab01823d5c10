import Intentd.MachineWords
import Mathlib.Algebra.BigOperators.Group.List.Basic
import Mathlib.Algebra.GroupWithZero.Nat
import Mathlib.Logic.Encodable.Basic

/-!
# Page windows and their tokens

A page is a window of a list that only grows at its newest end. Its tokens name positions
counted from the oldest end, which an append does not move: `b` is where the next older page
stops and `f` where the next newer page starts. A text page may also name the bytes of a line
that are still to come, `c`.

A window is trimmed to a byte budget from one of its ends or around a target. The sizes are
added in machine words and stay at the top of the range.
-/
namespace Intentd.PageWindows
open MachineWords List Bool Nat

def defaultPageLimit : ℕ := 50

def maxPageLimit : ℕ := 200

def clampLimit : Option ℤ → ℕ
  | none => defaultPageLimit
  | some l => (max 1 (min l maxPageLimit)).toNat

theorem clampLimit_pos (limit : Option ℤ) : 0 < clampLimit limit := by
  cases limit with
  | none => decide
  | some l =>
    rw [clampLimit]
    omega

structure Cursor where
  b : Option ℕ
  f : Option ℕ
  c : Option ℕ
  deriving DecidableEq

def Cursor.backward (b : ℕ) : Cursor := ⟨some b, none, none⟩

def Cursor.forward (f : ℕ) : Cursor := ⟨none, some f, none⟩

structure TokenCodec where
  encodeToken : Cursor → String
  decodeToken : String → Option Cursor
  decode_encode : ∀ cursor, decodeToken (encodeToken cursor) = some cursor

/-- Cursors as numbers, and numbers in unary. -/
instance : Inhabited TokenCodec where
  default :=
    { encodeToken := fun cursor =>
        String.ofList (replicate (Encodable.encode (cursor.b, cursor.f, cursor.c)) 'a')
      decodeToken := fun token =>
        (Encodable.decode token.toList.length : Option (Option ℕ × Option ℕ × Option ℕ)).map
          fun p => ⟨p.1, p.2.1, p.2.2⟩
      decode_encode := fun cursor => by
        rw [String.toList_ofList, length_replicate, Encodable.encodek]
        rfl }

structure PageWindow where
  start : ℕ
  stop : ℕ
  nextToken : Option String

structure SeekPageWindow where
  start : ℕ
  stop : ℕ
  nextToken : Option String
  prevToken : Option String

section Windows

variable (codec : TokenCodec)

def backwardPageBoundary (token : String) : Option ℕ := (codec.decodeToken token).bind Cursor.b

def remintBackwardToken (start : ℕ) : Option String :=
  if 0 < start then some (codec.encodeToken (.backward start)) else none

def remintForwardToken (stop len : ℕ) : Option String :=
  if stop < len then some (codec.encodeToken (.forward stop)) else none

def pageWindow (len : ℕ) (limit : Option ℤ) (token : Option String) : PageWindow :=
  let stop := match token.bind (backwardPageBoundary codec) with
    | none => len
    | some boundary => min boundary len
  let start := stop - clampLimit limit
  ⟨start, stop, remintBackwardToken codec start⟩

def seekWindow (len start stop : ℕ) : SeekPageWindow :=
  ⟨start, stop, remintBackwardToken codec start, remintForwardToken codec stop len⟩

def pageWindowAround (len : ℕ) (limit : Option ℤ) (index : ℕ) : SeekPageWindow :=
  let stop := min (min index len - clampLimit limit / 2 + clampLimit limit) len
  seekWindow codec len (stop - clampLimit limit) stop

def forwardPageWindow (len : ℕ) (limit : Option ℤ) (token : String) : Option SeekPageWindow := do
  let f ← (codec.decodeToken token).bind Cursor.f
  let start := min f len
  some (seekWindow codec len start (min (start + clampLimit limit) len))

end Windows

section Tokens

variable {codec : TokenCodec} {start stop len : ℕ} {token : String}

theorem remintBackwardToken_eq_none (h : remintBackwardToken codec start = none) : start = 0 := by
  rw [remintBackwardToken] at h
  split at h
  · cases h
  · omega

theorem remintBackwardToken_eq_some (h : remintBackwardToken codec start = some token) :
    token = codec.encodeToken (.backward start) ∧ 0 < start := by
  rw [remintBackwardToken] at h
  split at h
  next hpos => exact ⟨(Option.some.inj h).symm, hpos⟩
  · cases h

theorem remintForwardToken_eq_none (h : remintForwardToken codec stop len = none) : len ≤ stop := by
  rw [remintForwardToken] at h
  split at h
  · cases h
  · omega

theorem remintForwardToken_eq_some (h : remintForwardToken codec stop len = some token) :
    token = codec.encodeToken (.forward stop) ∧ stop < len := by
  rw [remintForwardToken] at h
  split at h
  next hlt => exact ⟨(Option.some.inj h).symm, hlt⟩
  · cases h

end Tokens

/-- Which end of a page the budget grows from. -/
inductive BudgetAnchor where
  | newest
  | oldest
  | target (pos : ℕ)

/-- The loop of a page that keeps its newest rows. -/
def growNewest (sizes : List ℕ) (budget : ℕ) : ℕ → ℕ → ℕ
  | 0, _ => 0
  | lo + 1, total =>
    let s := sizes.getD lo 0
    if lo + 1 ≠ sizes.length ∧ budget < saturatingAdd total s then lo + 1
    else growNewest sizes budget lo (saturatingAdd total s)

/-- The loop of a page that keeps its oldest rows. -/
def growOldest (budget : ℕ) : List ℕ → ℕ → ℕ → ℕ
  | [], hi, _ => hi
  | s :: rest, hi, total =>
    if hi ≠ 0 ∧ budget < saturatingAdd total s then hi
    else growOldest budget rest (hi + 1) (saturatingAdd total s)

structure Spread where
  lo : ℕ
  hi : ℕ
  total : ℕ
  canOlder : Bool
  canNewer : Bool

namespace Spread

variable (sizes : List ℕ)

def older (budget : ℕ) (sp : Spread) : Spread :=
  if sp.canOlder then
    let total := saturatingAdd sp.total (sizes.getD (sp.lo - 1) 0)
    if total ≤ budget then { sp with total, lo := sp.lo - 1, canOlder := 0 < sp.lo - 1 }
    else { sp with canOlder := false }
  else sp

def newer (budget : ℕ) (sp : Spread) : Spread :=
  if sp.canNewer then
    let total := saturatingAdd sp.total (sizes.getD sp.hi 0)
    if total ≤ budget then { sp with total, hi := sp.hi + 1, canNewer := sp.hi + 1 < sizes.length }
    else { sp with canNewer := false }
  else sp

def work (n : ℕ) (sp : Spread) : ℕ :=
  (sp.lo + sp.canOlder.toNat) + ((n - sp.hi) + sp.canNewer.toNat)

theorem older_newer (budget : ℕ) (sp : Spread) :
    (sp.older sizes budget).hi = sp.hi ∧ (sp.older sizes budget).canNewer = sp.canNewer := by
  rw [older]
  split
  · dsimp only
    split <;> exact ⟨rfl, rfl⟩
  · exact ⟨rfl, rfl⟩

theorem work_older (budget n : ℕ) (sp : Spread) :
    (sp.older sizes budget).work n + sp.canOlder.toNat ≤ sp.work n := by
  cases h : sp.canOlder with
  | false => simp [older, h]
  | true =>
    simp only [older, h, if_true, work, toNat_true]
    split
    · by_cases hlo : 0 < sp.lo - 1
      · simp only [decide_eq_true hlo, toNat_true]
        omega
      · simp only [decide_eq_false hlo, toNat_false]
        omega
    · simp only [toNat_false]
      omega

theorem work_newer (budget : ℕ) (sp : Spread) :
    (sp.newer sizes budget).work sizes.length + sp.canNewer.toNat ≤ sp.work sizes.length := by
  cases h : sp.canNewer with
  | false => simp [newer, h]
  | true =>
    simp only [newer, h, if_true, work, toNat_true]
    split
    · by_cases hhi : sp.hi + 1 < sizes.length
      · simp only [decide_eq_true hhi, toNat_true]
        omega
      · simp only [decide_eq_false hhi, toNat_false]
        omega
    · simp only [toNat_false]
      omega

/-- The loop of a page that keeps its target: older and newer rows in turn, until neither side
can grow. -/
def grow (sizes : List ℕ) (budget : ℕ) (sp : Spread) : Spread :=
  if sp.canOlder || sp.canNewer then grow sizes budget ((sp.older sizes budget).newer sizes budget)
  else sp
termination_by sp.work sizes.length
decreasing_by
  rename_i hcan
  have holder := work_older sizes budget sizes.length sp
  have hnewer := work_newer sizes budget (sp.older sizes budget)
  rw [(older_newer sizes budget sp).2] at hnewer
  rcases or_eq_true _ _ ▸ hcan with h | h
  · rw [h, toNat_true] at holder
    omega
  · rw [h, toNat_true] at hnewer
    omega

end Spread

def budgetPage (sizes : List ℕ) (anchor : BudgetAnchor) (budget : ℕ) : ℕ × ℕ :=
  if sizes.length = 0 then (0, 0)
  else match anchor with
    | .newest => (growNewest sizes budget sizes.length 0, sizes.length)
    | .oldest => (0, growOldest budget sizes 0 0)
    | .target pos =>
      let pos := min pos (sizes.length - 1)
      let sp := Spread.grow sizes budget
        ⟨pos, pos + 1, sizes.getD pos 0, 0 < pos, pos + 1 < sizes.length⟩
      (sp.lo, sp.hi)

/-! ## What is kept -/

variable {pos : ℕ}

section Kept

variable {sizes : List ℕ} {budget : ℕ} {lo hi : ℕ}

def counted (sizes : List ℕ) (lo hi : ℕ) : ℕ := min (sizes.extract lo hi).sum u64Max

theorem saturatingAdd_min (a s : ℕ) : saturatingAdd (min a u64Max) s = min (a + s) u64Max := by
  rw [saturatingAdd]
  omega

theorem getD_of_lt {i : ℕ} (h : i < sizes.length) : sizes.getD i 0 = sizes[i] := by
  simp [List.getD, h]

theorem saturatingAdd_of_min {a b : ℕ} (h : min a u64Max = b) (s : ℕ) :
    saturatingAdd a s = saturatingAdd b s := by
  rw [← h, saturatingAdd_min, saturatingAdd]

theorem counted_le (sizes : List ℕ) (lo hi : ℕ) :
    min (counted sizes lo hi) u64Max = counted sizes lo hi :=
  min_eq_left (min_le_right _ _)

theorem extract_older (hlo : 0 < lo) (hle : lo ≤ hi) (hhi : hi ≤ sizes.length) :
    sizes.extract (lo - 1) hi = sizes.getD (lo - 1) 0 :: sizes.extract lo hi := by
  have hlt : lo - 1 < sizes.length := by omega
  rw [extract_eq_take_drop, extract_eq_take_drop, drop_eq_getElem_cons hlt,
    show hi - (lo - 1) = (hi - lo) + 1 from by omega, take_succ_cons, Nat.sub_add_cancel hlo,
    getD_of_lt hlt]

theorem extract_newer (hle : lo ≤ hi) (hhi : hi < sizes.length) :
    sizes.extract lo (hi + 1) = sizes.extract lo hi ++ [sizes.getD hi 0] := by
  rw [extract_eq_take_drop, extract_eq_take_drop, show hi + 1 - lo = (hi - lo) + 1 from by omega,
    take_add_one, getElem?_drop, Nat.add_sub_cancel' hle, getElem?_eq_getElem hhi, getD_of_lt hhi]
  rfl

theorem counted_older (hlo : 0 < lo) (hle : lo ≤ hi) (hhi : hi ≤ sizes.length) :
    counted sizes (lo - 1) hi = saturatingAdd (counted sizes lo hi) (sizes.getD (lo - 1) 0) := by
  rw [counted, counted, saturatingAdd_min, extract_older hlo hle hhi, sum_cons, add_comm]

theorem counted_newer (hle : lo ≤ hi) (hhi : hi < sizes.length) :
    counted sizes lo (hi + 1) = saturatingAdd (counted sizes lo hi) (sizes.getD hi 0) := by
  rw [counted, counted, saturatingAdd_min, extract_newer hle hhi, sum_append_nat, sum_singleton]

/-- A part of a page that is within the budget or a single row. -/
def Bounded (sizes : List ℕ) (budget lo hi : ℕ) : Prop := hi - lo ≤ 1 ∨ counted sizes lo hi ≤ budget

theorem growNewest_spec (lo : ℕ) (hlo : lo ≤ sizes.length) (hne : 0 < sizes.length)
    (hb : Bounded sizes budget lo sizes.length) :
    growNewest sizes budget lo (counted sizes lo sizes.length) < sizes.length ∧
      Bounded sizes budget (growNewest sizes budget lo (counted sizes lo sizes.length))
        sizes.length := by
  induction lo with
  | zero => exact ⟨hne, hb⟩
  | succ lo ih =>
    have hc : counted sizes lo sizes.length =
        saturatingAdd (counted sizes (lo + 1) sizes.length) (sizes.getD lo 0) :=
      counted_older (succ_pos lo) hlo (le_refl sizes.length)
    rw [growNewest, ← hc]
    split
    next hs => exact ⟨by omega, hb⟩
    next hgo =>
      refine ih (by omega) ?_
      by_cases hf : lo + 1 = sizes.length
      · exact Or.inl (by omega)
      · exact Or.inr (Nat.le_of_not_lt fun hlt => hgo ⟨hf, hlt⟩)

theorem growOldest_spec (rest : List ℕ) (hi : ℕ) (hr : sizes.drop hi = rest)
    (hpos : 0 < hi ∨ rest ≠ []) (hhi : hi ≤ sizes.length) (hb : Bounded sizes budget 0 hi) :
    (0 < growOldest budget rest hi (counted sizes 0 hi) ∧
      growOldest budget rest hi (counted sizes 0 hi) ≤ sizes.length) ∧
      Bounded sizes budget 0 (growOldest budget rest hi (counted sizes 0 hi)) := by
  induction rest generalizing hi with
  | nil =>
    have hpos : 0 < hi := hpos.resolve_right fun h => h rfl
    exact ⟨⟨hpos, hhi⟩, hb⟩
  | cons s rest ih =>
    have hlt : hi < sizes.length := by
      have hlen := congrArg length hr
      simp only [length_drop, length_cons] at hlen
      omega
    obtain ⟨hs, hr'⟩ := List.cons.inj ((drop_eq_getElem_cons hlt).symm.trans hr)
    have hc := counted_newer (zero_le hi) hlt
    rw [getD_of_lt hlt, hs] at hc
    rw [growOldest, ← hc]
    split
    next hst => exact ⟨⟨by omega, hhi⟩, hb⟩
    next hgo =>
      refine ih (hi + 1) hr' (Or.inl (succ_pos _)) hlt ?_
      by_cases hf : hi = 0
      · exact Or.inl (by omega)
      · exact Or.inr (Nat.le_of_not_lt fun hlt => hgo ⟨hf, hlt⟩)

structure Spread.Holds (sizes : List ℕ) (budget pos : ℕ) (sp : Spread) : Prop where
  lo_le : sp.lo ≤ pos
  lt_hi : pos < sp.hi
  hi_le : sp.hi ≤ sizes.length
  older_pos : sp.canOlder = true → 0 < sp.lo
  newer_lt : sp.canNewer = true → sp.hi < sizes.length
  total_eq : min sp.total u64Max = counted sizes sp.lo sp.hi
  bounded : Bounded sizes budget sp.lo sp.hi

namespace Spread

variable {sp : Spread}
variable (h : Holds sizes budget pos sp)
include h

theorem Holds.older : Holds sizes budget pos (sp.older sizes budget) := by
  rw [Spread.older]
  split
  next hcan =>
    have hpos := h.older_pos hcan
    have hc := counted_older hpos (le_trans h.lo_le (le_of_lt h.lt_hi)) h.hi_le
    have hlo := h.lo_le
    simp only [saturatingAdd_of_min h.total_eq, ← hc]
    split
    next hfi =>
      exact ⟨le_trans (sub_le _ _) hlo, h.lt_hi, h.hi_le, of_decide_eq_true, h.newer_lt,
        counted_le _ _ _, Or.inr hfi⟩
    next =>
      exact { h with lo_le := hlo, older_pos := fun hf => (false_ne_true hf).elim }
  next => exact h

theorem Holds.newer : Holds sizes budget pos (sp.newer sizes budget) := by
  rw [Spread.newer]
  split
  next hcan =>
    have hlt := h.newer_lt hcan
    have hc := counted_newer (le_trans h.lo_le (le_of_lt h.lt_hi)) hlt
    simp only [saturatingAdd_of_min h.total_eq, ← hc]
    split
    next hfi =>
      exact ⟨h.lo_le, lt_succ_of_lt h.lt_hi, hlt, h.older_pos, of_decide_eq_true,
        counted_le _ _ _, Or.inr hfi⟩
    next =>
      exact { h with newer_lt := fun hf => (false_ne_true hf).elim }
  next => exact h

theorem Holds.grow : Holds sizes budget pos (sp.grow sizes budget) := by
  induction sp using Spread.grow.induct sizes budget with
  | case1 sp hcan ih =>
    rw [Spread.grow, if_pos hcan]
    exact ih h.older.newer
  | case2 sp hcan =>
    rw [Spread.grow, if_neg hcan]
    exact h

end Spread

/-- Where the rows that are kept lie in a page. -/
structure Keeps (sizes : List ℕ) (budget lo hi : ℕ) : Prop where
  le : lo ≤ hi
  hi_le : hi ≤ sizes.length
  filled : 0 < sizes.length → lo < hi
  bounded : Bounded sizes budget lo hi

theorem budgetPage_newest (sizes : List ℕ) (budget : ℕ) :
    Keeps sizes budget (budgetPage sizes .newest budget).1 (budgetPage sizes .newest budget).2 ∧
      (budgetPage sizes .newest budget).2 = sizes.length := by
  rw [budgetPage]
  split
  next hnil => exact ⟨⟨le_refl _, zero_le _, by omega, Or.inl (zero_le _)⟩, hnil.symm⟩
  next hne =>
    have hnil : counted sizes sizes.length sizes.length = 0 := by
      simp [counted, extract_eq_take_drop]
    have hs := growNewest_spec sizes.length (le_refl _) (Nat.pos_of_ne_zero hne)
      (Or.inl (by omega) : Bounded sizes budget _ _)
    rw [hnil] at hs
    exact ⟨⟨le_of_lt hs.1, le_refl _, fun _ => hs.1, hs.2⟩, rfl⟩

theorem budgetPage_oldest (sizes : List ℕ) (budget : ℕ) :
    Keeps sizes budget (budgetPage sizes .oldest budget).1 (budgetPage sizes .oldest budget).2 ∧
      (budgetPage sizes .oldest budget).1 = 0 := by
  rw [budgetPage]
  split
  next hnil => exact ⟨⟨le_refl _, zero_le _, by omega, Or.inl (zero_le _)⟩, rfl⟩
  next hne =>
    have hnil : counted sizes 0 0 = 0 := by
      simp [counted, extract_eq_take_drop]
    have hs := growOldest_spec sizes 0 drop_zero (Or.inr fun h => hne (congrArg length h))
      (zero_le _) (Or.inl (zero_le _) : Bounded sizes budget 0 0)
    exact ⟨⟨zero_le _, hs.1.2, fun _ => hs.1.1, hs.2⟩, rfl⟩

theorem budgetPage_target (hpos : pos < sizes.length) :
    Keeps sizes budget (budgetPage sizes (.target pos) budget).1
      (budgetPage sizes (.target pos) budget).2 ∧ (budgetPage sizes (.target pos) budget).1 ≤ pos ∧
        pos < (budgetPage sizes (.target pos) budget).2 := by
  have hmin : min pos (sizes.length - 1) = pos := by omega
  have hs : Spread.Holds sizes budget pos
      ⟨pos, pos + 1, sizes.getD pos 0, 0 < pos, pos + 1 < sizes.length⟩ := by
    refine ⟨le_refl _, lt_succ_self _, hpos, of_decide_eq_true, of_decide_eq_true, ?_,
      Or.inl (by simp)⟩
    have hone := counted_newer (le_refl pos) hpos
    rw [hone, saturatingAdd, counted, extract_eq_take_drop, Nat.sub_self, take_zero, sum_nil,
      Nat.zero_min, zero_add]
  have hend := hs.grow
  rw [budgetPage, if_neg (by omega)]
  simp only [hmin]
  exact ⟨⟨le_trans hend.lo_le (le_of_lt hend.lt_hi), hend.hi_le,
    fun _ => lt_of_le_of_lt hend.lo_le hend.lt_hi, hend.bounded⟩, hend.lo_le, hend.lt_hi⟩

end Kept

end Intentd.PageWindows
