import Mathlib.Data.List.Forall2

/-!
# Lists cut into consecutive groups

`Composed G as xs` says that `xs` was built from `as` by cutting `as` into
consecutive groups and turning each group into one element of `xs`. A queue that
merges an arrival into its newest element, or starts a new element with it,
keeps that relation between what arrived and what it holds.
-/
namespace Intentd.GroupedLists
open List

variable {α β : Type} (G : List α → β → Prop)

def Composed (as : List α) (xs : List β) : Prop :=
  ∃ groups : List (List α), groups.flatten = as ∧ List.Forall₂ G groups xs

variable {G} {as : List α} {xs : List β} {a : α} {x y : β} {ys : List β} {γ : Type}

theorem Composed.nil : Composed G [] [] := ⟨[], rfl, .nil⟩

theorem Composed.single (h : G as x) : Composed G as [x] :=
  ⟨[as], flatten_singleton, .cons h .nil⟩

theorem Composed.split (h : Composed G as (xs ++ ys)) :
    ∃ bs cs, as = bs ++ cs ∧ Composed G bs xs ∧ Composed G cs ys := by
  obtain ⟨groups, hf, hg⟩ := h
  have ht := forall₂_take_append groups xs ys hg
  have hd := forall₂_drop_append groups xs ys hg
  refine ⟨_, _, ?_, ⟨_, rfl, ht⟩, ⟨_, rfl, hd⟩⟩
  rw [← hf, ← flatten_append, take_append_drop]

theorem composed_singleton : Composed G as [x] ↔ G as x := by
  constructor
  · intro h
    obtain ⟨groups, hf, hgr⟩ := h
    cases hgr with
    | cons hg hnil =>
      cases hnil
      rwa [← hf, flatten_singleton]
  · exact Composed.single

theorem composed_nil_right : Composed G as [] ↔ as = [] := by
  constructor
  · intro h
    obtain ⟨groups, hf, hg⟩ := h
    cases hg
    exact hf.symm
  · rintro rfl
    exact .nil

section

variable (h : Composed G as xs)
include h

theorem Composed.append {bs : List α} (h' : Composed G bs ys) :
    Composed G (as ++ bs) (xs ++ ys) := by
  obtain ⟨groups, hf, hg⟩ := h
  obtain ⟨groups', hf', hg'⟩ := h'
  refine ⟨groups ++ groups', ?_, rel_append hg hg'⟩
  rw [flatten_append, hf, hf']

theorem Composed.exists_group (hx : x ∈ xs) : ∃ bs, G bs x := by
  obtain ⟨before, after, rfl⟩ := append_of_mem hx
  rw [← singleton_append] at h
  obtain ⟨-, bs, -, -, hr⟩ := h.split
  obtain ⟨cs, -, -, hl, -⟩ := hr.split
  exact ⟨cs, composed_singleton.mp hl⟩

theorem Composed.snoc (hx : G [a] x) : Composed G (as ++ [a]) (xs ++ [x]) := h.append (.single hx)

theorem Composed.mono {H : List α → β → Prop} (himp : ∀ bs x, G bs x → H bs x) :
    Composed H as xs := by
  obtain ⟨groups, hf, hg⟩ := h
  exact ⟨groups, hf, hg.imp himp⟩

theorem Composed.map {H : List α → γ → Prop} {f : β → γ}
    (himp : ∀ bs x, G bs x → H bs (f x)) : Composed H as (xs.map f) := by
  obtain ⟨groups, hf, hg⟩ := h
  exact ⟨groups, hf, forall₂_map_right_iff.mpr (hg.imp himp)⟩

/-- What every element shares with its group, the two lists share. -/
theorem Composed.flatMap_eq {f : β → List γ} {g : α → List γ}
    (heq : ∀ bs x, G bs x → f x = bs.flatMap g) : xs.flatMap f = as.flatMap g := by
  obtain ⟨groups, hf, hg⟩ := h
  subst hf
  induction hg with
  | nil => rfl
  | cons hx _ ih => rw [flatMap_cons, heq _ _ hx, ih, flatten_cons, flatMap_append]

/-- Where every element keeps the last arrival of its group, the last element
keeps the last arrival of all. -/
theorem Composed.getLast?_eq {f : α → β}
    (hl : ∀ bs x, G bs x → bs.getLast?.map f = some x) : xs.getLast? = as.getLast?.map f := by
  rcases eq_nil_or_concat xs with rfl | ⟨ys, x, rfl⟩
  · rw [composed_nil_right.mp h]
    rfl
  · rw [concat_eq_append] at h ⊢
    obtain ⟨bs, cs, rfl, -, hx⟩ := h.split
    have hx := hl cs x (composed_singleton.mp hx)
    obtain ⟨c, hc, rfl⟩ := Option.map_eq_some_iff.mp hx
    rw [List.getLast?_concat, List.getLast?_append, hc]
    rfl

end

theorem Composed.extend (h : Composed G as (xs ++ [x]))
    (hm : ∀ bs, G bs x → G (bs ++ [a]) y) : Composed G (as ++ [a]) (xs ++ [y]) := by
  obtain ⟨bs, cs, has, hin, hl⟩ := h.split
  rw [has, append_assoc]
  exact hin.append (.single (hm cs (composed_singleton.mp hl)))

end Intentd.GroupedLists
