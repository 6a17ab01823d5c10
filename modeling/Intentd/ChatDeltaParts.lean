import Intentd.ListPages
import Mathlib.Data.List.Induction

/-!
# Chat deltas in parts

A chat delta larger than one message may be is sent in several. The entities keep their order, the
added ones before the updated ones, and a part is closed when the next entity would pass the budget.
The removed ids and any other keys go with the last part, and their size is not counted.
So the last part is the only one that may be too large.
-/
namespace Intentd.ChatDeltaParts
open JsonValues ListPages List

def listed (key : String) (delta : Json) : List Json := ((delta.get key).bind Json.asArr).getD []

def envelope (added updated : List Json) : Json :=
  .obj [("added", .arr added), ("updated", .arr updated), ("removedIds", .arr [])]

def base : ℕ := jsonLen (envelope [] [])

/-- The parts that are closed, and the entities and the size of the one that is filled. -/
structure Parts where
  out : List Json
  added : List Json
  updated : List Json
  size : ℕ

open Parts

def Parts.start : Parts := ⟨[], [], [], base⟩

def Parts.close (p : Parts) : Parts := ⟨p.out ++ [envelope p.added p.updated], [], [], base⟩

def Parts.push (p : Parts) (entry : Bool × Json) : Parts :=
  if entry.1 then { p with added := p.added ++ [entry.2], size := p.size + (jsonLen entry.2 + 1) }
  else { p with updated := p.updated ++ [entry.2], size := p.size + (jsonLen entry.2 + 1) }

def Parts.step (budget : ℕ) (p : Parts) (entry : Bool × Json) : Parts :=
  (if budget < p.size + (jsonLen entry.2 + 1) ∧ p.added ++ p.updated ≠ [] then p.close
    else p).push entry

/-- The last part also takes what is left of the delta. -/
def Parts.last (p : Parts) (fields : Fields) : Json :=
  .obj ((Fields.remove "removedIds" fields).foldl (fun part field =>
    Fields.insert field.1 field.2 part)
    [("added", .arr p.added), ("updated", .arr p.updated),
      ("removedIds", (Fields.get "removedIds" fields).getD (.arr []))])

/-- What a delta has beside its entities. -/
def beside (fields : Fields) : Fields := Fields.remove "updated" (Fields.remove "added" fields)

def entries (delta : Json) : List (Bool × Json) :=
  (listed "added" delta).map (true, ·) ++ (listed "updated" delta).map (false, ·)

/-- The entities are put into parts one by one. -/
def filled (budget : ℕ) (delta : Json) : Parts := (entries delta).foldl (step budget) .start

/-- Whoever applies deltas: first what is added, then what is updated, then what is removed. -/
structure Client (σ : Type) where
  add : σ → Json → σ
  update : σ → Json → σ
  remove : σ → Json → σ

variable {σ : Type}

def Client.apply (client : Client σ) (s : σ) (delta : Json) : σ :=
  (listed "removedIds" delta).foldl client.remove
    ((listed "updated" delta).foldl client.update ((listed "added" delta).foldl client.add s))

def known : List String := ["added", "updated", "removedIds"]

/-- The parts hold what the delta holds, each thing once and in order, and do what it does. -/
structure Rebuilds (delta : Json) (parts : List Json) : Prop where
  lists : ∀ key ∈ known, parts.flatMap (listed key) = listed key delta
  others : ∀ key ∉ known, parts.filterMap (Json.get · key) = (delta.get key).toList
  effect : ∀ (σ : Type) (client : Client σ) (s : σ),
    parts.foldl client.apply s = client.apply s delta

def Fits (budget : ℕ) (part : Json) : Prop :=
  jsonLen part ≤ budget ∨ (listed "added" part ++ listed "updated" part).length = 1

/-- What the last part takes along. -/
def others (fields : Fields) : Fields := Fields.remove "removedIds" (beside fields)

variable {key : String}

section Lists

variable (added updated : List Json)

@[simp] theorem listed_added : listed "added" (envelope added updated) = added := rfl

@[simp] theorem listed_updated : listed "updated" (envelope added updated) = updated := by
  simp [listed, envelope, Json.get, Fields.get, Json.asArr]

@[simp] theorem listed_removed : listed "removedIds" (envelope added updated) = [] := by
  simp [listed, envelope, Json.get, Fields.get, Json.asArr]

theorem get_envelope (h : key ∉ known) : (envelope added updated).get key = none := by
  have hk : "added" ≠ key ∧ "updated" ≠ key ∧ "removedIds" ≠ key := by
    simpa [known, eq_comm] using h
  simp [envelope, Json.get, Fields.get, hk]

theorem apply_envelope (client : Client σ) (s : σ) :
    client.apply s (envelope added updated) =
      updated.foldl client.update (added.foldl client.add s) := by
  simp [Client.apply]

theorem jsonLen_envelope :
    jsonLen (envelope added updated) ≤ base + itemsLen (added ++ updated) := by
  rw [itemsLen_append]
  simp only [base, envelope, jsonLen, fieldsLen, itemsLen]
  omega

end Lists

def chosen (isAdded : Bool) (es : List (Bool × Json)) : List Json :=
  (es.filter fun e => e.1 = isAdded).map Prod.snd

@[simp] theorem chosen_snoc (isAdded : Bool) (es : List (Bool × Json)) (e : Bool × Json) :
    chosen isAdded (es ++ [e]) = chosen isAdded es ++ if e.1 = isAdded then [e.2] else [] := by
  by_cases h : e.1 = isAdded <;> simp [chosen, h]

/-- What the parts hold once the entities `done` are in them. -/
structure Parts.Holds (budget : ℕ) (done : List (Bool × Json)) (p : Parts) : Prop where
  added : p.out.flatMap (listed "added") ++ p.added = chosen true done
  updated : p.out.flatMap (listed "updated") ++ p.updated = chosen false done
  size : p.size = base + itemsLen (p.added ++ p.updated)
  fits : p.size ≤ budget ∨ (p.added ++ p.updated).length ≤ 1
  closed : ∀ part ∈ p.out, listed "removedIds" part = [] ∧ (∀ key ∉ known, part.get key = none) ∧
    Fits budget part
  effect : ∀ (σ : Type) (client : Client σ) (s : σ),
    client.apply (p.out.foldl client.apply s) (envelope p.added p.updated) =
    (chosen false done).foldl client.update ((chosen true done).foldl client.add s)

variable {budget : ℕ}

section Filling

variable {done : List (Bool × Json)} {p : Parts} {entry : Bool × Json}

theorem Parts.Holds.fits_envelope (h : p.Holds budget done) (hne : p.added ++ p.updated ≠ []) :
    Fits budget (envelope p.added p.updated) := by
  have hle := jsonLen_envelope p.added p.updated
  have hlen := length_pos_of_ne_nil hne
  rcases h.fits with hf | hf
  · exact .inl (Nat.le_trans hle (h.size ▸ hf))
  · exact .inr (by rw [listed_added, listed_updated]; omega)

theorem Parts.Holds.close (h : p.Holds budget done) (hne : p.added ++ p.updated ≠ []) :
    p.close.Holds budget done := by
  refine ⟨?_, ?_, rfl, .inr (Nat.zero_le _),
    forall_mem_append.mpr ⟨h.closed, forall_mem_singleton.mpr ?_⟩, ?_⟩
  · simpa [Parts.close] using h.added
  · simpa [Parts.close] using h.updated
  · exact ⟨listed_removed _ _, fun key hk => get_envelope _ _ hk, h.fits_envelope hne⟩
  · intro σ client s
    rw [← h.effect σ client s]
    simp [Parts.close, apply_envelope]

theorem Parts.Holds.push (h : p.Holds budget done) (hs : entry.1 → ∀ e ∈ done, e.1)
    (hr : p.size + (jsonLen entry.2 + 1) ≤ budget ∨ p.added ++ p.updated = []) :
    (p.push entry).Holds budget (done ++ [entry]) := by
  obtain ⟨isAdded, entity⟩ := entry
  have hsi := h.size
  rw [itemsLen_append] at hsi
  have hef := h.effect
  cases isAdded with
  | true =>
    -- nothing was updated so far
    have hn : chosen false done = [] := by simpa [chosen] using hs rfl
    have hup := h.updated
    rw [hn] at hup hef
    have hcur := (append_eq_nil_iff.mp hup).2
    refine ⟨by simp [push, ← h.added], by simp [push, hn, hup], ?_, ?_, h.closed, ?_⟩
    · simp [push, itemsLen_append, itemsLen]
      omega
    · exact hr.imp id fun hnil => by simp_all [push]
    · intro σ client s
      have he := hef σ client s
      simp only [apply_envelope, hcur, foldl_nil] at he
      simp [push, apply_envelope, hcur, hn, he]
  | false =>
    refine ⟨by simpa [push] using h.added, by simp [push, ← h.updated], ?_, ?_, h.closed, ?_⟩
    · simp [push, itemsLen_append, itemsLen]
      omega
    · exact hr.imp id fun hnil => by simp_all [push]
    · intro σ client s
      have he := hef σ client s
      rw [apply_envelope] at he
      simp [push, apply_envelope, he]

theorem Parts.Holds.step (h : p.Holds budget done) (hs : entry.1 → ∀ e ∈ done, e.1) :
    (p.step budget entry).Holds budget (done ++ [entry]) := by
  unfold Parts.step
  split_ifs with hf
  · exact (h.close hf.2).push hs (.inr rfl)
  · exact h.push hs (by by_cases hnil : p.added ++ p.updated = [] <;> simp_all)

end Filling

/-! ## The last part -/

variable {fields : Fields}

section Last

variable {more : Fields}

variable {p : Parts}

end Last

/-- Two entities, and a removed id that does not fit beside them. -/
def crowded : Fields :=
  [("added", .arr [.obj [("id", .str "a")], .obj [("id", .str "b")]]), ("updated", .arr []),
    ("removedIds", .arr [.str "c"])]

end Intentd.ChatDeltaParts
