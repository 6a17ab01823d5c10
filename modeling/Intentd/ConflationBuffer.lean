import Mathlib.Algebra.Order.BigOperators.Group.List
import Mathlib.Algebra.Order.Ring.Nat
import Intentd.JsonValues
import Intentd.MachineWords

/-!
# The conflation buffer of a slow subscriber

While a connection's outbound lane is full, the forwarders keep the conflatable
frames in this buffer: a queue of entries in arrival order and an index from
each key to the entry an arrival of that key is merged into. A merge keeps the
entry's place. A merge that the items refuse leaves the entry where it is and
appends the newer item, which becomes the entry of the key.

`push` and `pop` return `none` where the source would panic: an index that
points at no entry, or a cost that would drop below zero. Ids and costs are
natural numbers. The source counts both in 64 bits, which no run exhausts: an id
is spent per appended entry and a cost is bounded by the memory that holds it.
-/
namespace Intentd.ConflationBuffer
open JsonValues MachineWords List Option

/-- Frames with equal keys supersede or merge; distinct keys never interact. -/
inductive Key where
  | activity (agent : String)
  | terminal (workspace terminal : String)
  | file (workspace path : String)
  | chatBlock (block : String)
  deriving DecidableEq, Repr

mutual
/-- Approximate payload size of a value in bytes. -/
def approxSize : Json → ℕ
  | .null | .bool _ | .num _ => 8
  | .str s => s.utf8ByteSize + 8
  | .arr items => approxSizeItems items + 8
  | .obj fields => approxSizeFields fields + 8

def approxSizeItems : List Json → ℕ
  | [] => 0
  | v :: rest => approxSize v + approxSizeItems rest

def approxSizeFields : List (String × Json) → ℕ
  | [] => 0
  | (k, v) :: rest => k.utf8ByteSize + approxSize v + approxSizeFields rest
end

/-- What merging a newer item into a pending one does. A refusal leaves the
pending item as it is and hands an item back. -/
inductive Merge (T : Type) where
  | merged (pending : T)
  | refused (newer : T)

/-- How two items of one key combine, and the payload size of an item. A merge
is `none` where the source would panic. -/
class Conflate (T : Type) where
  merge : T → T → Option (Merge T)
  cost : T → ℕ

open Conflate

structure Entry (T : Type) where
  id : ℕ
  key : Key
  cost : ℕ
  item : T

structure Buffer (T : Type) where
  entries : List (Entry T)
  index : Key → Option ℕ
  nextId : ℕ
  cost : ℕ
  maxEntries : ℕ
  maxBytes : ℕ

def maxPendingEntries : ℕ := 256

def maxPendingBytes : ℕ := 8 * 1024 * 1024

variable {T : Type}

def bounded (maxEntries maxBytes : ℕ) : Buffer T :=
  ⟨[], fun _ => none, 0, 0, maxEntries, maxBytes⟩

def new : Buffer T := bounded maxPendingEntries maxPendingBytes

/-- How many entries come before the first one whose id is not below `id`. On
ascending ids this is what the source's binary search finds. -/
def partitionPoint (entries : List (Entry T)) (id : ℕ) : ℕ :=
  (entries.takeWhile fun e => decide (e.id < id)).length

namespace Buffer

variable [Conflate T]
variable (b : Buffer T)

/-- The buffer after an item was added as the last entry. -/
def appended (key : Key) (item : T) : Buffer T :=
  { b with
    entries := b.entries ++ [⟨b.nextId + 1, key, Conflate.cost item, item⟩]
    index := Function.update b.index key (some (b.nextId + 1))
    nextId := b.nextId + 1
    cost := b.cost + Conflate.cost item }

/-- Add an item as the last entry, or hand it back when the buffer is full. -/
def append (key : Key) (item : T) : Option T × Buffer T :=
  if b.maxEntries ≤ b.entries.length then (some item, b) else (none, b.appended key item)

def replaced (pos : ℕ) (entry : Entry T) (rest : ℕ) (item : T) : Buffer T :=
  { b with
    entries := b.entries.set pos { entry with cost := Conflate.cost item, item := item }
    cost := rest + Conflate.cost item }

/-- Buffer one item. The answer is the item handed back, if any. -/
def push (key : Key) (item : T) : Option (Option T × Buffer T) :=
  if b.maxBytes < b.cost + Conflate.cost item then some (some item, b)
  else
    match b.index key with
    | none => some (b.append key item)
    | some id => do
        let pos := partitionPoint b.entries id
        let entry ← b.entries[pos]?
        if entry.id ≠ id then none
        else
          match ← merge entry.item item with
          | .merged pending => do
              let rest ← checkedSub b.cost entry.cost
              some (none, b.replaced pos entry rest pending)
          | .refused newer => some (b.append key newer)

/-- The index once an entry has left: its key is dropped if it pointed there. -/
def unindexed (entry : Entry T) : Key → Option ℕ :=
  if b.index entry.key = some entry.id then Function.update b.index entry.key none else b.index

/-- The buffer after its oldest entry has left. -/
def popped (entry : Entry T) (entries : List (Entry T)) (rest : ℕ) : Buffer T :=
  { b with entries := entries, index := b.unindexed entry, cost := rest }

def pop : Option (Option T × Buffer T) :=
  match b.entries with
  | [] => some (none, b)
  | entry :: entries => do
      let rest ← checkedSub b.cost entry.cost
      some (some entry.item, b.popped entry entries rest)

/-- The entries of one key, in the order they are drained. -/
def of (key : Key) : List (Entry T) := b.entries.filter fun e => e.key = key

structure Sound (b : Buffer T) : Prop where
  ascending : b.entries.Pairwise fun e f => e.id < f.id
  allocated : ∀ e ∈ b.entries, e.id ≤ b.nextId
  /-- A key is indexed exactly when it has pending entries, by the last of them. -/
  indexed : ∀ key, b.index key = (b.of key).getLast?.map Entry.id
  stored : ∀ e ∈ b.entries, e.cost = Conflate.cost e.item
  total : b.cost = (b.entries.map Entry.cost).sum

structure Bounded (b : Buffer T) : Prop where
  entries : b.entries.length ≤ b.maxEntries
  bytes : b.cost ≤ b.maxBytes

theorem sound_bounded (maxEntries maxBytes : ℕ) :
    Sound (bounded maxEntries maxBytes : Buffer T) where
  ascending := .nil
  allocated := by simp [bounded]
  indexed := by simp [bounded, of]
  stored := by simp [bounded]
  total := rfl

/-- The last entry of a key and its place in the queue. -/
structure Located (b : Buffer T) (key : Key) (before : List (Entry T)) (e : Entry T)
    (after : List (Entry T)) : Prop where
  split : b.entries = before ++ e :: after
  key_eq : e.key = key
  last : ∀ f ∈ after, f.key ≠ key

/-- What a push would append: the item itself when its key has no entry, what the
merge hands back when the key's last entry refuses the item. -/
inductive Offered (b : Buffer T) (key : Key) (item : T) : T → Prop
  | fresh : b.of key = [] → Offered b key item item
  | refused {before : List (Entry T)} {e : Entry T} {after : List (Entry T)} {newer : T} :
      b.Located key before e after → merge e.item item = some (.refused newer) →
      Offered b key item newer

def mergedAt (before : List (Entry T)) (e : Entry T) (after : List (Entry T)) (pending : T) :
    Buffer T :=
  { b with
    entries := before ++ { e with cost := Conflate.cost pending, item := pending } :: after
    cost := b.cost - e.cost + Conflate.cost pending }

inductive Pushed (b : Buffer T) (key : Key) (item : T) : Option T → Buffer T → Prop
  | overBytes : b.maxBytes < b.cost + Conflate.cost item → Pushed b key item (some item) b
  | full {newer : T} : b.cost + Conflate.cost item ≤ b.maxBytes → b.Offered key item newer →
      b.maxEntries ≤ b.entries.length → Pushed b key item (some newer) b
  | appended {newer : T} : b.cost + Conflate.cost item ≤ b.maxBytes → b.Offered key item newer →
      b.entries.length < b.maxEntries → Pushed b key item none (b.appended key newer)
  | merged {before : List (Entry T)} {e : Entry T} {after : List (Entry T)} {pending : T} :
      b.cost + Conflate.cost item ≤ b.maxBytes → b.Located key before e after →
      merge e.item item = some (.merged pending) →
      Pushed b key item none (b.mergedAt before e after pending)

end Buffer

/-- Merges never panic, and a merged item is no larger than its two parts. -/
class LawfulConflate (T : Type) [Conflate T] : Prop where
  merge_isSome : ∀ pending newer : T, (merge pending newer).isSome
  merged_cost_le : ∀ {pending newer merged : T}, merge pending newer = some (.merged merged) →
    Conflate.cost merged ≤ Conflate.cost pending + Conflate.cost newer

namespace Buffer

variable [Conflate T] {b b' : Buffer T} {key : Key} {item : T} {r : Option T}
  {before after entries : List (Entry T)} {e : Entry T} {pending : T}

theorem exists_last_of_filter {α : Type} {p : α → Bool} {l : List α} {a : α}
    (h : (l.filter p).getLast? = some a) :
    ∃ before after, l = before ++ a :: after ∧ p a = true ∧ ∀ x ∈ after, p x = false := by
  induction l using reverseRecOn with
  | nil => cases h
  | append_singleton l x ih =>
    cases hx : p x with
    | true =>
      rw [filter_append, filter_singleton, hx] at h
      simp only [cond_true, getLast?_append, getLast?_singleton, some_or, some.injEq] at h
      subst h
      exact ⟨l, [], rfl, hx, by simp⟩
    | false =>
      rw [filter_append, filter_singleton, hx] at h
      simp only [cond_false, append_nil] at h
      obtain ⟨before, after, hl, ha, haf⟩ := ih h
      refine ⟨before, after ++ [x], by simp [hl], ha, ?_⟩
      exact forall_mem_append.mpr ⟨haf, forall_mem_singleton.mpr hx⟩

omit [Conflate T] in
theorem Located.of_eq (h : b.Located key before e after) :
    b.of key = before.filter (fun f => f.key = key) ++ [e] := by
  have ha : after.filter (fun f => decide (f.key = key)) = [] := by
    simpa using h.last
  rw [of, h.split, filter_append, filter_cons_of_pos (by simpa using h.key_eq), ha]

omit [Conflate T] in
theorem Located.unique {before' after' : List (Entry T)} {e' : Entry T}
    (h : b.Located key before e after) (h' : b.Located key before' e' after') : e = e' := by
  obtain ⟨-, he⟩ := append_inj' (h.of_eq.symm.trans h'.of_eq) rfl
  exact singleton_inj.mp he

theorem pushed_append {newer : T} (hf : b.cost + Conflate.cost item ≤ b.maxBytes)
    (ho : b.Offered key item newer) :
    Pushed b key item (b.append key newer).1 (b.append key newer).2 := by
  unfold append
  split_ifs with hfu
  · exact .full hf ho hfu
  · exact .appended hf ho (by omega)

theorem located_mergedAt (hloc : b.Located key before e after) :
    (b.mergedAt before e after pending).Located key before
      { e with cost := Conflate.cost pending, item := pending } after :=
  { hloc with split := rfl }

theorem of_mergedAt_ne {k : Key} (hloc : b.Located key before e after) (hk : k ≠ key) :
    (b.mergedAt before e after pending).of k = b.of k := by
  have hne : ¬e.key = k := by
    rw [hloc.key_eq]
    exact hk.symm
  simp [of, mergedAt, hloc.split, filter_append, hne]

omit [Conflate T] in
theorem bounded_bounded (maxEntries maxBytes : ℕ) :
    Bounded (bounded maxEntries maxBytes : Buffer T) := ⟨Nat.zero_le _, Nat.zero_le _⟩

section

variable (h : b.Sound)
include h

theorem Sound.located {id : ℕ} (hid : b.index key = some id) :
    ∃ before e after, b.Located key before e after ∧ e.id = id ∧
      partitionPoint b.entries id = before.length := by
  rw [h.indexed, map_eq_some_iff] at hid
  obtain ⟨e, hl, rfl⟩ := hid
  obtain ⟨before, after, hs, hkey, ha⟩ := exists_last_of_filter hl
  refine ⟨before, e, after, ⟨hs, by simpa using hkey, by simpa using ha⟩, rfl, ?_⟩
  have hasc := h.ascending
  rw [hs, pairwise_append] at hasc
  have hb : ∀ x ∈ before, decide (x.id < e.id) = true := by
    intro x hx
    simpa using hasc.2.2 x hx e (by simp)
  rw [partitionPoint, hs, takeWhile_append_of_pos hb]
  simp

theorem Sound.le_cost (he : e ∈ b.entries) : e.cost ≤ b.cost := by
  rw [h.total]
  exact single_le_sum (by simp) _ (mem_map_of_mem he)

/-- A push on a sound buffer never panics and does what `Pushed` says. -/
theorem Sound.push [LawfulConflate T] (key : Key) (item : T) :
    ∃ r b', b.push key item = some (r, b') ∧ Pushed b key item r b' := by
  unfold Buffer.push
  split_ifs with ho
  · exact ⟨_, _, rfl, .overBytes ho⟩
  · have hf : b.cost + Conflate.cost item ≤ b.maxBytes := by omega
    cases hid : b.index key with
    | none =>
      have hfr : b.of key = [] := by
        have hin := h.indexed key
        rw [hid] at hin
        simpa using hin.symm
      exact ⟨_, _, rfl, pushed_append hf (.fresh hfr)⟩
    | some id =>
      obtain ⟨before, e, after, hloc, heid, hpos⟩ := h.located hid
      have hget : b.entries[before.length]? = some e := by simp [hloc.split]
      obtain ⟨m, hm⟩ := isSome_iff_exists.mp (LawfulConflate.merge_isSome e.item item)
      have hle := h.le_cost (e := e) (by simp [hloc.split])
      simp only [hpos, hget, hm, heid, bind_eq_bind, bind_some, ne_eq, not_true_eq_false, if_false]
      cases m with
      | merged pending =>
        refine ⟨none, b.mergedAt before e after pending, ?_, .merged hf hloc hm⟩
        simp [checkedSub, hle, replaced, mergedAt, hloc.split]
      | refused newer => exact ⟨_, _, rfl, pushed_append hf (.refused hloc hm)⟩

theorem sound_appended (newer : T) : (b.appended key newer).Sound where
  ascending := by
    rw [appended, pairwise_append]
    refine ⟨h.ascending, pairwise_singleton _ _, ?_⟩
    intro e he f hf
    rw [mem_singleton.mp hf]
    exact Nat.lt_succ_of_le (h.allocated e he)
  allocated := forall_mem_append.mpr
    ⟨fun e he => (h.allocated e he).trans (Nat.le_succ _), forall_mem_singleton.mpr le_rfl⟩
  indexed := by
    intro k
    by_cases hk : k = key
    · subst hk
      simp [appended, of, filter_append]
    · have hkey : ¬key = k := fun heq => hk heq.symm
      simp [appended, of, filter_append, Function.update_of_ne hk, hkey, h.indexed k]
  stored := forall_mem_append.mpr ⟨h.stored, forall_mem_singleton.mpr rfl⟩
  total := by simp [appended, h.total]

theorem sound_mergedAt (pending : T) (hloc : b.Located key before e after) :
    (b.mergedAt before e after pending).Sound where
  ascending := by
    have hasc := h.ascending
    rw [hloc.split] at hasc
    simpa [mergedAt, pairwise_append] using hasc
  allocated := by
    have hall := h.allocated
    rw [hloc.split, forall_mem_append, forall_mem_cons] at hall
    exact forall_mem_append.mpr ⟨hall.1, forall_mem_cons.mpr hall.2⟩
  indexed := by
    intro k
    have hin := h.indexed k
    by_cases hk : k = key
    · subst hk
      have hl' : (b.mergedAt before e after pending).Located k before
          { e with cost := Conflate.cost pending, item := pending } after := located_mergedAt hloc
      rw [hloc.of_eq, getLast?_concat] at hin
      rw [hl'.of_eq, getLast?_concat]
      exact hin
    · rw [of_mergedAt_ne hloc hk]
      exact hin
  stored := by
    have hs := h.stored
    rw [hloc.split, forall_mem_append, forall_mem_cons] at hs
    exact forall_mem_append.mpr ⟨hs.1, forall_mem_cons.mpr ⟨rfl, hs.2.2⟩⟩
  total := by
    have ht := h.total
    rw [hloc.split] at ht
    simp only [map_append, map_cons, sum_append, sum_cons] at ht
    simp only [mergedAt, map_append, map_cons, sum_append, sum_cons]
    omega

theorem Sound.pushed (hp : Pushed b key item r b') : b'.Sound := by
  cases hp with
  | overBytes | full => exact h
  | appended => exact sound_appended h _
  | merged _ hloc => exact sound_mergedAt h _ hloc

/-- A pop on a sound buffer never panics: it hands out the oldest item. -/
theorem Sound.pop :
    (b.entries = [] ∧ b.pop = some (none, b)) ∨ ∃ e entries, b.entries = e :: entries ∧
        b.pop = some (some e.item, b.popped e entries (b.cost - e.cost)) := by
  cases he : b.entries with
  | nil => exact .inl ⟨rfl, by rw [Buffer.pop, he]⟩
  | cons e entries =>
    have hle : e.cost ≤ b.cost := h.le_cost (by simp [he])
    exact .inr ⟨e, entries, rfl, by simp [Buffer.pop, he, checkedSub, hle]⟩

theorem Sound.unindexed_eq (he : b.entries = e :: entries) (k : Key) :
    b.unindexed e k = (entries.filter fun f => f.key = k).getLast?.map Entry.id := by
  have hin := h.indexed k
  rw [of, he] at hin
  by_cases hk : e.key = k
  · rw [filter_cons_of_pos (by simpa using hk)] at hin
    subst hk
    cases hr : (entries.filter fun f => decide (f.key = e.key)).getLast? with
    | none =>
      have hnil : entries.filter (fun f => decide (f.key = e.key)) = [] := by
        simpa using hr
      rw [hnil] at hin
      simp [unindexed, show b.index e.key = some e.id from hin]
    | some f =>
      have hf : f ∈ entries := mem_of_mem_filter (mem_of_getLast? hr)
      have hlt : e.id < f.id := by
        have hasc := h.ascending
        rw [he] at hasc
        exact rel_of_pairwise_cons hasc hf
      rw [getLast?_cons, hr] at hin
      have hne : f.id ≠ e.id := by omega
      simp [unindexed, show b.index e.key = some f.id from hin, hne]
  · rw [filter_cons_of_neg (by simpa using hk)] at hin
    have hu : b.unindexed e k = b.index k := by
      unfold unindexed
      split_ifs
      · exact Function.update_of_ne (fun heq => hk heq.symm) _ _
      · rfl
    rw [hu, hin]

theorem sound_popped (he : b.entries = e :: entries) :
    (b.popped e entries (b.cost - e.cost)).Sound := by
  have hasc := h.ascending
  have ha := h.allocated
  have hs := h.stored
  have ht := h.total
  rw [he] at hasc ha hs ht
  rw [pairwise_cons] at hasc
  refine ⟨hasc.2, fun f hf => ha f (mem_cons_of_mem _ hf), h.unindexed_eq he,
    fun f hf => hs f (mem_cons_of_mem _ hf), ?_⟩
  · rw [map_cons, sum_cons] at ht
    change b.cost - e.cost = (entries.map Entry.cost).sum
    omega

/-- A push keeps the limits exactly when what it appends fits. The byte limit is
checked against the item offered, and what is appended can be larger. -/
theorem Bounded.pushed_iff [LawfulConflate T] (hb : b.Bounded) (hp : Pushed b key item r b') :
    b'.Bounded ↔ ∀ newer, b' = b.appended key newer →
      b.cost + Conflate.cost newer ≤ b.maxBytes := by
  constructor
  · intro hb' newer heq
    have hby := hb'.bytes
    rwa [heq] at hby
  · intro hf
    cases hp with
    | overBytes | full => exact hb
    | @appended newer _ _ hr =>
      refine ⟨?_, hf newer rfl⟩
      simp only [appended, length_append, length_singleton]
      omega
    | @merged before e after pending hc hloc hm =>
      have hl := hb.entries
      have hle := LawfulConflate.merged_cost_le hm
      have hs := h.stored e (by simp [hloc.split])
      have he := h.le_cost (e := e) (by simp [hloc.split])
      rw [hloc.split] at hl
      refine ⟨by simpa [mergedAt] using hl, ?_⟩
      simp only [mergedAt]
      omega

end

omit [Conflate T] in
theorem Bounded.popped (hb : b.Bounded) (he : b.entries = e :: entries) :
    (b.popped e entries (b.cost - e.cost)).Bounded := by
  have hl := hb.entries
  rw [he, length_cons] at hl
  refine ⟨?_, (Nat.sub_le _ _).trans hb.bytes⟩
  simp only [Buffer.popped]
  omega

end Buffer

end Intentd.ConflationBuffer
