import Mathlib.Data.List.Nodup

/-!
# Tables whose rows have distinct keys

A table is a list of rows, and what is read from it is the row of a key. Changing the row
of a key, erasing it and putting a row say what is read afterwards, for every key. In a
table whose keys are distinct, changing the first row that passes a test is changing the
row of its key.
-/
namespace Intentd.KeyedTables
open List

variable {α κ : Type} [DecidableEq κ] (key : α → κ)

def lookup (k : κ) (rows : List α) : Option α := rows.find? fun row => key row = k

def update (k : κ) (f : α → α) (rows : List α) : List α :=
  rows.map fun row => if key row = k then f row else row

def erase (k : κ) (rows : List α) : List α := rows.filter fun row => key row ≠ k

/-- The row is added, or laid over the one that has its key. -/
def put (overwrite : α → α → α) (row : α) (rows : List α) : List α :=
  if rows.any fun old => key old = key row then update key (key row) (overwrite · row) rows
  else rows ++ [row]

def modifyFirst (p : α → Bool) (f : α → α) : List α → List α
  | [] => []
  | row :: rows => if p row then f row :: rows else row :: modifyFirst p f rows

variable {key} {rows : List α} {k k' : κ} {row : α} {overwrite : α → α → α} {p : α → Bool}

theorem key_of_lookup (h : lookup key k rows = some row) : key row = k := by
  have := find?_some h
  simpa using this

theorem mem_of_lookup (h : lookup key k rows = some row) : row ∈ rows := mem_of_find?_eq_some h

theorem lookup_eq_none : lookup key k rows = none ↔ k ∉ rows.map key := by
  rw [lookup, find?_eq_none]
  simp [eq_comm]

theorem lookup_of_mem (hn : (rows.map key).Nodup) (h : row ∈ rows) :
    lookup key (key row) rows = some row := by
  induction rows with
  | nil => cases h
  | cons first rows ih =>
    rw [map_cons, nodup_cons] at hn
    by_cases hkey : key first = key row
    · rcases mem_cons.mp h with rfl | hmem
      · simp [lookup]
      · exact absurd (hkey ▸ mem_map_of_mem hmem) hn.1
    · have hmem : row ∈ rows := (mem_cons.mp h).resolve_left fun heq => hkey (heq ▸ rfl)
      have := ih hn.2 hmem
      simpa [lookup, hkey] using this

variable {f : α → α}

theorem update_eq_self (h : ∀ row ∈ rows, key row = k → f row = row) :
    update key k f rows = rows := by
  conv_rhs => rw [← map_id rows]
  refine map_congr_left fun row hrow => ?_
  split
  · rename_i hkey
    exact h row hrow hkey
  · rfl

section Update

variable (hf : ∀ row, key (f row) = key row)

include hf

theorem keys_update : (update key k f rows).map key = rows.map key := by
  rw [update, map_map]
  refine map_congr_left fun row _ => ?_
  rw [Function.comp_apply]
  split
  · exact hf row
  · rfl

theorem lookup_update : lookup key k' (update key k f rows) =
      if k' = k then (lookup key k rows).map f else lookup key k' rows := by
  induction rows with
  | nil => simp [update, lookup]
  | cons row rows ih =>
    simp only [update, lookup, map_cons, find?_cons] at ih ⊢
    by_cases hrow : key row = k
    · by_cases hk : k' = k
      · subst hk
        simp [hrow, hf]
      · have hne : key row ≠ k' := fun h => hk (h.symm.trans hrow)
        simp only [hrow, if_true, hf, hk, if_false] at ih ⊢
        simpa [hrow ▸ hne] using ih
    · by_cases hk : k' = k
      · subst hk
        simp only [hrow, if_false, decide_false, if_true] at ih ⊢
        exact ih
      · simp only [hrow, if_false, hk] at ih ⊢
        rw [ih]

end Update

theorem keys_erase : (erase key k rows).map key = (rows.map key).filter (· ≠ k) := by
  rw [erase, filter_map]
  rfl

theorem lookup_erase :
    lookup key k' (erase key k rows) = if k' = k then none else lookup key k' rows := by
  split
  · rename_i heq
    subst heq
    rw [lookup_eq_none, keys_erase]
    simp
  · rename_i hne
    rw [lookup, erase, find?_filter, lookup]
    congr 1
    funext row
    by_cases hrow : key row = k'
    · simp [hrow, hne]
    · simp [hrow]

theorem lookup_concat (hfr : key row ∉ rows.map key) :
    lookup key k (rows ++ [row]) = if k = key row then some row else lookup key k rows := by
  rw [lookup, find?_append]
  split
  · rename_i heq
    subst heq
    rw [show rows.find? _ = none from lookup_eq_none.mpr hfr]
    simp
  · rename_i hne
    simp [lookup, Ne.symm hne]

theorem lookup_put (ho : ∀ old row, key (overwrite old row) = key old) :
    lookup key k (put key overwrite row rows) =
      if k = key row then some (((lookup key (key row) rows).map (overwrite · row)).getD row)
      else lookup key k rows := by
  unfold put
  split
  · rename_i hany
    rw [lookup_update fun old => ho old row]
    split
    · obtain ⟨old, hold⟩ : ∃ old, lookup key (key row) rows = some old := by
        rw [← Option.ne_none_iff_exists', ne_eq, lookup_eq_none, not_not]
        obtain ⟨old, hmem, hkey⟩ := any_eq_true.mp hany
        exact mem_map.mpr ⟨old, hmem, of_decide_eq_true hkey⟩
      rw [hold]
      rfl
    · rfl
  · rename_i hany
    have hfr : key row ∉ rows.map key := by
      intro hmem
      obtain ⟨old, hold, hkey⟩ := mem_map.mp hmem
      exact hany (any_eq_true.mpr ⟨old, hold, decide_eq_true hkey⟩)
    rw [lookup_concat hfr, lookup_eq_none.mpr hfr]
    rfl

theorem keys_put_nodup (ho : ∀ old row, key (overwrite old row) = key old)
    (hn : (rows.map key).Nodup) : ((put key overwrite row rows).map key).Nodup := by
  unfold put
  split
  · rw [keys_update fun old => ho old row]
    exact hn
  · rename_i hany
    rw [map_append, map_singleton, ← concat_eq_append]
    refine hn.concat fun hk => hany ?_
    obtain ⟨old, hold, hkey⟩ := mem_map.mp hk
    exact any_eq_true.mpr ⟨old, hold, decide_eq_true hkey⟩

theorem modifyFirst_eq_update (hn : (rows.map key).Nodup) (h : rows.find? p = some row)
    (f : α → α) : modifyFirst p f rows = update key (key row) f rows := by
  induction rows with
  | nil => cases h
  | cons first rows ih =>
    rw [map_cons, nodup_cons] at hn
    rw [find?_cons] at h
    rw [modifyFirst, update, map_cons]
    split at h
    · rename_i hp
      cases h
      have hr : update key (key row) f rows = rows :=
        update_eq_self fun x hx heq => absurd (heq ▸ mem_map_of_mem hx) hn.1
      rw [if_pos hp, if_pos rfl]
      exact congrArg (f row :: ·) hr.symm
    · rename_i hp
      have hmem : row ∈ rows := mem_of_find?_eq_some h
      have hne : key first ≠ key row := fun heq => hn.1 (heq ▸ mem_map_of_mem hmem)
      rw [if_neg (by simp [hp]), if_neg hne, ih hn.2 h]
      rfl

theorem modifyFirst_of_find?_eq_none (h : rows.find? p = none) (f : α → α) :
    modifyFirst p f rows = rows := by
  induction rows with
  | nil => rfl
  | cons first rows ih =>
    rw [find?_cons] at h
    split at h
    · cases h
    · rename_i hp
      rw [modifyFirst, if_neg (by simp [hp]), ih h]

theorem modifyFirst_key (hn : (rows.map key).Nodup) (f : α → α) :
    modifyFirst (fun row => key row = k) f rows = update key k f rows := by
  cases h : rows.find? fun row => key row = k with
  | none =>
    rw [modifyFirst_of_find?_eq_none h, update_eq_self fun row hrow hkey => ?_]
    exact absurd (decide_eq_true hkey) (find?_eq_none.mp h row hrow)
  | some row =>
    have hkey : key row = k := key_of_lookup h
    rw [modifyFirst_eq_update hn h, hkey]

omit [DecidableEq κ] in
/-- At most one row has the key, so the first that passes the test is all that do. -/
theorem eraseP_eq_filter (hn : (rows.map key).Nodup) (hp : ∀ row, p row = true → key row = k) :
    rows.eraseP p = rows.filter (!p ·) := by
  induction rows with
  | nil => rfl
  | cons first rows ih =>
    rw [map_cons, nodup_cons] at hn
    cases hfi : p first with
    | false => rw [eraseP_cons_of_neg (by simp [hfi]), ih hn.2,
        filter_cons_of_pos (by simp [hfi])]
    | true =>
      have hr : rows.filter (!p ·) = rows := by
        refine filter_eq_self.mpr fun row hrow => ?_
        rw [Bool.not_eq_true']
        refine Bool.eq_false_iff.mpr fun hs => hn.1 ?_
        rw [hp first hfi, ← hp row hs]
        exact mem_map_of_mem hrow
      rw [eraseP_cons_of_pos hfi, filter_cons_of_neg (by simp [hfi]), hr]

end Intentd.KeyedTables
