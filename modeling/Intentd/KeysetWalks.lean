import Mathlib.Data.List.Sort

/-!
# Walks over a changing table in the order of its keys

A table is read in pages. A page goes on after the last key of the page before it, and shows the
next rows in the order of their keys. Rows may come and go between two pages. The strict order of
the keys alone makes a walk show no key twice and miss none that was there all the time.

A position is none once the walk is over, otherwise it is the key to go on after, which is not
there before the first page.
-/
namespace Intentd.KeysetWalks
open List

section Ahead

variable {α κ : Type} [LinearOrder κ] (key : α → κ)

def arranged (rows : List α) : List α := rows.insertionSort fun a b => key a ≤ key b

def ahead (after : Option κ) (rows : List α) : List α :=
  (arranged key rows).filter fun a => after.all fun k => decide (k < key a)

theorem map_ahead (after : Option κ) (rows : List α) :
    (ahead key after rows).map key = ahead id after (rows.map key) := by
  have hs : (rows.map key).insertionSort (fun a b => id a ≤ id b) =
      (rows.insertionSort fun a b => key a ≤ key b).map key :=
    (map_insertionSort _ _ key rows fun _ _ _ _ => Iff.rfl).symm
  rw [ahead, ahead, arranged, arranged, hs, filter_map]
  rfl

variable {key}

theorem arranged_sorted {rows : List α} (hk : (rows.map key).Nodup) :
    (arranged key rows).Pairwise fun a b => key a < key b := by
  have hn : ((arranged key rows).map key).Nodup :=
    ((perm_insertionSort _ rows).map key).nodup_iff.mpr hk
  have hle : (arranged key rows).Pairwise fun a b => key a ≤ key b := pairwise_insertionSort _ rows
  exact (hle.and (pairwise_map.mp hn)).imp fun h => lt_of_le_of_ne h.1 h.2

theorem mem_arranged {rows : List α} {a : α} : a ∈ arranged key rows ↔ a ∈ rows :=
  mem_insertionSort _

end Ahead

variable {κ : Type} [LinearOrder κ]

structure Page (after : Option κ) (keys shown : List κ) (next : Option κ) : Prop where
  first : ∃ rest, ahead id after keys = shown ++ rest
  last : next = none → shown = ahead id after keys
  more : ∀ k, next = some k → ∃ before, shown = before ++ [k]

/-- A key the walk will not come to any more. -/
def Passed (pos : Option (Option κ)) (k : κ) : Prop := ∀ after, pos = some after →
    ∃ k', after = some k' ∧ k ≤ k'

/-- What was shown on the way to a position, when the kept keys were there all the time. -/
structure Walked (kept : κ → Prop) (pos : Option (Option κ)) (shown : List κ) : Prop where
  sorted : shown.Pairwise (· < ·)
  behind : ∀ k ∈ shown, Passed pos k
  served : ∀ k, kept k → Passed pos k → k ∈ shown

variable {after : Option κ} {keys shown page : List κ} {next : Option κ} {k : κ}

theorem mem_ahead : k ∈ ahead id after keys ↔ k ∈ keys ∧ ∀ k', after = some k' → k' < k := by
  rw [ahead, mem_filter, mem_arranged]
  cases after <;> simp

theorem ahead_sorted (after : Option κ) (hk : keys.Nodup) :
    (ahead id after keys).Pairwise (· < ·) := by
  have hid : (keys.map id).Nodup := by rwa [map_id]
  exact (arranged_sorted hid).filter _

theorem Walked.start (kept : κ → Prop) : Walked kept (some none) [] := by
  refine ⟨List.Pairwise.nil, fun k hk => absurd hk not_mem_nil, fun k _ hp => ?_⟩
  obtain ⟨k', hk', -⟩ := hp none rfl
  cases hk'

theorem Walked.mono {kept kept' : κ → Prop} {pos : Option (Option κ)} (h : Walked kept pos shown)
    (himp : ∀ k, kept' k → kept k) : Walked kept' pos shown :=
  { h with served := fun k hk => h.served k (himp k hk) }

section

variable (h : Page after keys page next)
include h

theorem Page.sorted (hk : keys.Nodup) : page.Pairwise (· < ·) := by
  obtain ⟨rest, hr⟩ := h.first
  have hs := ahead_sorted after hk
  rw [hr] at hs
  exact (pairwise_append.mp hs).1

theorem Page.mem_keys (hk : k ∈ page) : k ∈ keys ∧ ∀ k', after = some k' → k' < k := by
  obtain ⟨rest, hr⟩ := h.first
  exact mem_ahead.mp (hr ▸ mem_append_left rest hk)

theorem Page.passed (hke : keys.Nodup) (hk : k ∈ page) : Passed (next.map some) k := by
  intro after' ha'
  obtain ⟨last, hl, rfl⟩ := Option.map_eq_some_iff.mp ha'
  refine ⟨last, rfl, ?_⟩
  obtain ⟨before, rfl⟩ := h.more last hl
  have hs := pairwise_append.mp (h.sorted hke)
  rcases mem_append.mp hk with hb | hl
  · exact le_of_lt (hs.2.2 k hb last (mem_singleton.mpr rfl))
  · rw [mem_singleton.mp hl]

theorem Page.mem_of_passed (hke : keys.Nodup) (hk : k ∈ ahead id after keys)
    (hp : Passed (next.map some) k) : k ∈ page := by
  cases hn : next with
  | none => rwa [h.last hn]
  | some last =>
    obtain ⟨rest, hr⟩ := h.first
    obtain ⟨before, hpa⟩ := h.more last hn
    rw [hr] at hk
    refine (mem_append.mp hk).resolve_right fun hin => ?_
    have hs := ahead_sorted after hke
    rw [hr, pairwise_append] at hs
    have hmem : last ∈ page := hpa ▸ mem_append_right _ (mem_singleton.mpr rfl)
    obtain ⟨k', hk', hle⟩ := hp (some last) (by rw [hn]; rfl)
    cases hk'
    exact absurd (hs.2.2 last hmem k hin) (not_lt.mpr hle)

end

theorem Walked.read {kept : κ → Prop} (h : Walked kept (some after) shown) (hke : keys.Nodup)
    (hkep : ∀ k, kept k → k ∈ keys) (hp : Page after keys page next) :
    Walked kept (next.map some) (shown ++ page) := by
  refine ⟨?_, fun k hk => ?_, fun k hk hpa => ?_⟩
  · refine pairwise_append.mpr ⟨h.sorted, hp.sorted hke, fun a ha b hb => ?_⟩
    obtain ⟨k, hk, hle⟩ := h.behind a ha after rfl
    exact lt_of_le_of_lt hle ((hp.mem_keys hb).2 k hk)
  · rcases mem_append.mp hk with hs | hnew
    · intro after' ha'
      obtain ⟨old, hold, hle⟩ := h.behind k hs after rfl
      obtain ⟨last, hl, rfl⟩ := Option.map_eq_some_iff.mp ha'
      obtain ⟨before, rfl⟩ := hp.more last hl
      have hmem : last ∈ before ++ [last] := mem_append_right _ (mem_singleton.mpr rfl)
      exact ⟨last, rfl, le_of_lt (lt_of_le_of_lt hle ((hp.mem_keys hmem).2 old hold))⟩
    · exact hp.passed hke hnew
  · by_cases hold : Passed (some after) k
    · exact mem_append_left _ (h.served k hk hold)
    · refine mem_append_right _
        (hp.mem_of_passed hke (mem_ahead.mpr ⟨hkep k hk, fun k' hk' => ?_⟩) hpa)
      by_contra hle
      refine hold fun after' ha' => ?_
      cases ha'
      exact ⟨k', hk', not_lt.mp hle⟩

def remaining (after : Option κ) (keys : List κ) : ℕ := keys.countP fun k => after.all fun k' =>
    decide (k' < k)

theorem length_ahead (after : Option κ) (keys : List κ) :
    (ahead id after keys).length = remaining after keys := by
  rw [ahead, ← countP_eq_length_filter]
  exact (perm_insertionSort _ keys).countP_eq _

theorem Page.remaining_lt (h : Page after keys page (some k)) :
    remaining (some k) keys < remaining after keys := by
  obtain ⟨before, rfl⟩ := h.more k rfl
  obtain ⟨rest, hr⟩ := h.first
  have hk : k ∈ ahead id after keys := by simp [hr]
  have hf : (ahead id after keys).filter (fun k' => decide (k < k')) = ahead id (some k) keys := by
    rw [ahead, filter_filter, ahead]
    refine filter_congr fun k' _ => ?_
    cases after with
    | none => simp
    | some old =>
      have hold := (mem_ahead.mp hk).2 old rfl
      simpa using fun hk' => lt_trans hold hk'
  rw [← length_ahead, ← length_ahead, ← hf]
  exact length_filter_lt_length_iff_exists.mpr ⟨k, hk, by simp⟩

end Intentd.KeysetWalks
