import Intentd.ConflationBuffer
import Intentd.FoldedRuns
import Intentd.GroupedLists

/-!
# What a conflation buffer does to its arrivals

Key by key, the items that left a buffer followed by the pending ones were built
from consecutive groups of the accepted arrivals, in arrival order. What it
means to be built from a group is a parameter: a relation that one arrival
meets, that a merge extends by the newer arrival, and that a refused merge
leaves true of what it hands back.

A history is a run of pushes and pops. Every history runs to its end without a
panic, keeps the bookkeeping, and accounts for its arrivals.
-/
namespace Intentd.ConflationBuffer
open GroupedLists Conflate List Buffer

variable {T : Type} [Conflate T] {α : Type}
variable {e : Entry T}

section Accounts

variable (key : α → Key) (wrap : α → T) (G : Key → List α → T → Prop)

/-- `G k as x` says that the item `x` of key `k` was built from the arrivals `as`. -/
structure Composes : Prop where
  single : ∀ a, G (key a) [a] (wrap a)
  merged : ∀ {as a x y}, G (key a) as x → merge x (wrap a) = some (.merged y) →
    G (key a) (as ++ [a]) y
  refused : ∀ {as a x y}, G (key a) as x → merge x (wrap a) = some (.refused y) → G (key a) [a] y

/-- Key by key, the items that left and then the pending ones were built from
consecutive groups of the arrivals, in arrival order. -/
def Accounts (b : Buffer T) (arrived : List α) (left : List (Key × T)) : Prop :=
  ∀ k, Composed (G k) (arrived.filter fun a => key a = k)
    ((left.filter fun x => x.1 = k).map Prod.snd ++ (b.of k).map Entry.item)

variable {key wrap G} {b b' : Buffer T} {arrived : List α} {left : List (Key × T)} {a : α} {x : T}

omit [Conflate T] in
theorem accounts_empty (h : b.entries = []) : Accounts key G b [] [] := by
  intro k
  rw [of, h]
  exact .nil

theorem Composes.offered (hG : Composes key wrap G) (h : Accounts key G b arrived left)
    (ho : b.Offered (key a) (wrap a) x) : G (key a) [a] x := by
  cases ho with
  | fresh => exact hG.single a
  | @refused before e after _ hloc hm =>
    have hc := h (key a)
    rw [hloc.of_eq, map_append, ← append_assoc] at hc
    obtain ⟨as, has⟩ := hc.exists_group (x := e.item) (by simp)
    exact hG.refused has hm

theorem Composes.handedBack (hG : Composes key wrap G) (h : Accounts key G b arrived left)
    (hp : b.Pushed (key a) (wrap a) (some x) b') : b' = b ∧ G (key a) [a] x := by
  cases hp with
  | overBytes => exact ⟨rfl, hG.single a⟩
  | full _ ho => exact ⟨rfl, hG.offered h ho⟩

theorem Composes.accepted (hG : Composes key wrap G) (h : Accounts key G b arrived left)
    (hp : b.Pushed (key a) (wrap a) none b') : Accounts key G b' (arrived ++ [a]) left := by
  intro k
  have hk := h k
  by_cases hka : key a = k
  · subst hka
    have ha : (arrived ++ [a]).filter (fun x => decide (key x = key a)) =
        arrived.filter (fun x => decide (key x = key a)) ++ [a] := by
      simp [filter_append]
    rw [ha]
    cases hp with
    | @appended newer _ ho =>
      have hof : (b.appended (key a) newer).of (key a) =
          b.of (key a) ++ [⟨b.nextId + 1, key a, Conflate.cost newer, newer⟩] := by
        simp [of, appended, filter_append]
      rw [hof, map_append, ← append_assoc]
      exact hk.snoc (hG.offered h ho)
    | @merged before e after pending _ hloc hm =>
      rw [hloc.of_eq, map_append, ← append_assoc] at hk
      rw [(located_mergedAt hloc).of_eq, map_append, ← append_assoc]
      exact hk.extend fun as has => hG.merged has hm
  · have ha : (arrived ++ [a]).filter (fun x => decide (key x = k)) =
        arrived.filter (fun x => decide (key x = k)) := by
      simp [filter_append, hka]
    have hof : b'.of k = b.of k := by
      cases hp with
      | appended => simp [of, appended, filter_append, hka]
      | merged _ hloc _ => exact of_mergedAt_ne hloc fun heq => hka heq.symm
    rw [ha, hof]
    exact hk

section

variable (h : Accounts key G b arrived left)
include h

omit [Conflate T] in
theorem Accounts.exists_of_entry (he : e ∈ b.entries) : ∃ as, G e.key as e.item := by
  have hof : e ∈ b.of e.key := by
    rw [of, mem_filter]
    exact ⟨he, by simp⟩
  exact (h e.key).exists_group (mem_append_right _ (mem_map_of_mem hof))

omit [Conflate T] in
theorem Accounts.exists_of_left {k : Key} {x : T} (hx : (k, x) ∈ left) : ∃ as, G k as x := by
  have hk : (k, x) ∈ left.filter fun y => decide (y.1 = k) := by
    rw [mem_filter]
    exact ⟨hx, by simp⟩
  exact (h k).exists_group (mem_append_left _ (mem_map_of_mem hk))

omit [Conflate T] in
theorem Accounts.popped {entries : List (Entry T)} (he : b.entries = e :: entries) (rest : ℕ) :
    Accounts key G (b.popped e entries rest) arrived (left ++ [(e.key, e.item)]) := by
  intro k
  have hk := h k
  rw [Buffer.of, he] at hk
  rw [Buffer.of, Buffer.popped, filter_append, map_append, append_assoc]
  by_cases hkey : e.key = k <;> simpa [filter_cons, hkey] using hk

omit [Conflate T] in
theorem Accounts.sent (he : b.entries = [])
    (hx : G (key a) [a] x) : Accounts key G b (arrived ++ [a]) (left ++ [(key a, x)]) := by
  intro k
  have hk := h k
  rw [of, he] at hk ⊢
  by_cases hka : key a = k
  · subst hka
    simpa [filter_append] using hk.snoc hx
  · simpa [filter_append, hka] using hk

end

end Accounts

inductive Op (α : Type) where
  | push (a : α)
  | pop

structure History (T α : Type) where
  buffer : Buffer T
  accepted : List α
  popped : List (Key × T)

namespace History

def start (maxEntries maxBytes : ℕ) : History T α := ⟨bounded maxEntries maxBytes, [], []⟩

variable (key : α → Key) (wrap : α → T)

/-- One operation. An arrival that is handed back was not accepted. -/
@[simp] def apply (h : History T α) : Op α → Option (History T α)
  | .push a => do
      let (handedBack, b) ← h.buffer.push (key a) (wrap a)
      match handedBack with
      | none => some { h with buffer := b, accepted := h.accepted ++ [a] }
      | some _ => some { h with buffer := b }
  | .pop => do
      let (item, b) ← h.buffer.pop
      match h.buffer.entries.head?, item with
      | some e, some item => some { h with buffer := b, popped := h.popped ++ [(e.key, item)] }
      | _, _ => some { h with buffer := b }

def run (h : History T α) (ops : List (Op α)) : Option (History T α) :=
  ops.foldlM (apply key wrap) h

structure Kept (G : Key → List α → T → Prop) (h : History T α) : Prop where
  sound : h.buffer.Sound
  accounts : Accounts key G h.buffer h.accepted h.popped

variable {key wrap} {G : Key → List α → T → Prop} {h : History T α}

theorem Kept.apply [LawfulConflate T] (hG : Composes key wrap G) (hk : Kept key G h) (op : Op α) :
    ∃ h', h.apply key wrap op = some h' ∧ Kept key G h' := by
  cases op with
  | push a =>
    obtain ⟨r, b', hpu, hp⟩ := hk.sound.push (key a) (wrap a)
    cases r with
    | none =>
      refine ⟨⟨b', h.accepted ++ [a], h.popped⟩, by simp [hpu], ?_⟩
      exact ⟨hk.sound.pushed hp, hG.accepted hk.accounts hp⟩
    | some x =>
      obtain ⟨rfl, -⟩ := hG.handedBack hk.accounts hp
      exact ⟨h, by simp [hpu], hk⟩
  | pop =>
    rcases hk.sound.pop with ⟨hem, hpop⟩ | ⟨e, entries, he, hpop⟩
    · exact ⟨h, by simp [hpop, hem], hk⟩
    · refine ⟨⟨_, h.accepted, h.popped ++ [(e.key, e.item)]⟩, by simp [hpop, he]; rfl, ?_⟩
      exact ⟨sound_popped hk.sound he, hk.accounts.popped he _⟩

theorem Kept.run [LawfulConflate T] (hG : Composes key wrap G) (hk : Kept key G h)
    (ops : List (Op α)) : ∃ h', h.run key wrap ops = some h' ∧ Kept key G h' :=
  FoldedRuns.run_invariant (fun _ op hk => hk.apply hG op) hk ops

theorem kept_start (maxEntries maxBytes : ℕ) :
    Kept key G (start maxEntries maxBytes : History T α) :=
  ⟨sound_bounded maxEntries maxBytes, accounts_empty rfl⟩

end History

end Intentd.ConflationBuffer
