import Mathlib.Data.List.Basic

/-!
# Following page cursors

A reader asks for a page with a cursor and gets the page and the cursor of the next one, until
there is none. What answers may have changed between two calls, so the calls are numbered.

A walk is followed with fuel. It ends when a measure of the cursors goes down with every page,
and what holds of all its pages is put together from the last page backwards.
-/
namespace Intentd.PageWalks
open Option

variable {κ π : Type}

/-- The pages from call `n` on. A call may fail. -/
def follow (serve : ℕ → κ → Option (π × Option κ)) : ℕ → ℕ → κ → Option (List π)
  | 0, _, _ => none
  | fuel + 1, n, cursor => do
      let (page, next) ← serve n cursor
      match next with
      | none => some [page]
      | some cursor => (follow serve fuel (n + 1) cursor).map (page :: ·)

variable {serve : ℕ → κ → Option (π × Option κ)} {I : ℕ → κ → Prop} {Q : ℕ → κ → List π → Prop}
  {fuel n : ℕ} {cursor : κ} {pages : List π}

/-- What a call does to an invariant of the cursors and to a property of the walk. -/
structure Step (serve : ℕ → κ → Option (π × Option κ)) (I : ℕ → κ → Prop)
    (Q : ℕ → κ → List π → Prop) (n : ℕ) (cursor : κ) (page : π) (next : Option κ) : Prop where
  serve_eq : serve n cursor = some (page, next)
  last : next = none → Q n cursor [page]
  more : ∀ cursor', next = some cursor' →
    I (n + 1) cursor' ∧ ∀ rest, Q (n + 1) cursor' rest → Q n cursor (page :: rest)

theorem follow_sound (hst : ∀ n cursor, I n cursor → ∃ page next, Step serve I Q n cursor page next)
    (hI : I n cursor) (h : follow serve fuel n cursor = some pages) : Q n cursor pages := by
  induction fuel generalizing n cursor pages with
  | zero => cases h
  | succ fuel ih =>
    obtain ⟨page, next, hs⟩ := hst n cursor hI
    rw [follow, hs.serve_eq] at h
    cases next with
    | none =>
      cases h
      exact hs.last rfl
    | some cursor' =>
      obtain ⟨hI', hm⟩ := hs.more cursor' rfl
      obtain ⟨rest, hr, rfl⟩ := map_eq_some_iff.mp h
      exact hm rest (ih hI' hr)

theorem follow_ne_nil (h : follow serve fuel n cursor = some pages) : pages ≠ [] := by
  cases fuel with
  | zero => cases h
  | succ fuel =>
    obtain ⟨⟨page, next⟩, -, h⟩ := bind_eq_some_iff.mp h
    cases next with
    | none =>
      cases h
      exact List.cons_ne_nil _ _
    | some cursor' =>
      obtain ⟨rest, -, rfl⟩ := map_eq_some_iff.mp h
      exact List.cons_ne_nil _ _

/-- A walk ends when a measure goes down of what its cursors stand for. -/
theorem follow_ends_with {γ : Type} {I : ℕ → κ → γ → Prop} {Q : ℕ → γ → List π → Prop}
    (measure : γ → ℕ)
    (hst : ∀ n cursor g, I n cursor g → ∃ page next, serve n cursor = some (page, next) ∧
      (next = none → Q n g [page]) ∧
      ∀ cursor', next = some cursor' → ∃ g', I (n + 1) cursor' g' ∧ measure g' < measure g ∧
        ∀ rest, Q (n + 1) g' rest → Q n g (page :: rest)) {g : γ} (hI : I n cursor g)
    (hf : measure g < fuel) : ∃ pages, follow serve fuel n cursor = some pages ∧ Q n g pages := by
  induction fuel generalizing n cursor g with
  | zero => exact absurd hf (Nat.not_lt_zero _)
  | succ fuel ih =>
    obtain ⟨page, next, hs, hl, hm⟩ := hst n cursor g hI
    rw [follow, hs]
    cases next with
    | none => exact ⟨[page], rfl, hl rfl⟩
    | some cursor' =>
      obtain ⟨g', hI', hle, hQ⟩ := hm cursor' rfl
      obtain ⟨rest, hre, hr⟩ := ih hI' (by omega)
      refine ⟨page :: rest, ?_, hQ rest hr⟩
      simp only [bind_eq_bind, bind_some, hre, map_some]

theorem follow_ends (measure : ℕ → κ → ℕ)
    (hst : ∀ n cursor, I n cursor → ∃ page next, Step serve I Q n cursor page next ∧
      ∀ cursor', next = some cursor' → measure (n + 1) cursor' < measure n cursor)
    (hI : I n cursor) (hf : measure n cursor < fuel) :
    ∃ pages, follow serve fuel n cursor = some pages ∧ Q n cursor pages := by
  refine follow_ends_with (I := fun n cursor g => I n cursor ∧ g = (n, cursor)) (Q :=
    fun n g pages => Q n g.2 pages)
    (fun g => measure g.1 g.2) (fun n cursor g hg => ?_) ⟨hI, rfl⟩ hf
  obtain ⟨hI, rfl⟩ := hg
  obtain ⟨page, next, hs, hd⟩ := hst n cursor hI
  refine ⟨page, next, hs.serve_eq, hs.last, fun cursor' hc => ?_⟩
  obtain ⟨hI', hm⟩ := hs.more cursor' hc
  exact ⟨(n + 1, cursor'), ⟨hI', rfl⟩, hd cursor' hc, hm⟩

end Intentd.PageWalks
