import Intentd.JournalProcess

/-!
# What a journal is for

The ledger forgets files and counters. It has a lease, every entry appended
since that lease was adopted, and how many of them are acknowledged. A command
that completes has one effect. A command cut short by the death of its process
has that effect or none; only a lease change can stop between the two, with the
old lease still in force and a tail of its entries gone.
-/
namespace Intentd.JournalLedger
open JournalDirectory JournalProcess MachineWords List

structure Ledger (β : Type) where
  lease : Option String
  log : List (JournalEntry β)
  acked : ℕ
  acked_le : acked ≤ log.length
  length_le : log.length ≤ u64Max

variable {β : Type}

def Ledger.fresh (lease : Option String) : Ledger β := ⟨lease, [], 0, le_rfl, Nat.zero_le _⟩

namespace Ledger

variable (L : Ledger β)

def push (entry : JournalEntry β) : Ledger β :=
  if h : L.log.length < u64Max then
    { L with
      log := L.log ++ [entry]
      acked_le := by simpa using Nat.le_succ_of_le L.acked_le
      length_le := by simpa using Nat.succ_le_of_lt h }
  else L

/-- An acknowledgement that is old, or past the last entry, changes nothing. -/
def acknowledge (seq : ℕ) : Ledger β :=
  if h : L.acked < seq ∧ seq ≤ L.log.length then { L with acked := seq, acked_le := h.2 } else L

def adopt (leaseId : String) : Ledger β :=
  if L.lease = some leaseId then L else fresh (some leaseId)

/-- The first `k` entries only. -/
def cut (k : ℕ) (hk : L.acked ≤ k) : Ledger β :=
  { L with
    log := L.log.take k
    acked_le := by simpa using ⟨hk, L.acked_le⟩
    length_le := (length_take_le' k L.log).trans L.length_le }

def apply : Command β → Ledger β
  | .reopen => L
  | .call (.useLease leaseId) => L.adopt leaseId
  | .call (.append entry) => L.push entry
  | .call (.acknowledge seq) => L.acknowledge seq

/-- The ledger's entries as records, numbered from one. -/
def records : List (JournalRecord β) :=
  L.log.mapIdx fun i entry => { entry with seq := i + 1 }

def record (seq : ℕ) : Option (JournalRecord β) := L.records[seq - 1]?

/-- What reading the records after `seq` may return: unacknowledged records, and
short of the top of the range all of those that follow it. -/
def Reads (seq : ℕ) (rs : List (JournalRecord β)) : Prop :=
  (∀ r ∈ rs, L.acked < r.seq ∧ r ∈ L.records) ∧
    (max seq L.acked < u64Max → rs = L.records.drop (max seq L.acked))

end Ledger

inductive Next : Ledger β → Command β × Ending → Ledger β → Prop
  | completed (L : Ledger β) (c : Command β) : Next L (c, .completed) (L.apply c)
  | diedAfter (L : Ledger β) (c : Command β) : Next L (c, .died) (L.apply c)
  | diedBefore (L : Ledger β) (c : Command β) : Next L (c, .died) L
  | diedDropping (L : Ledger β) (leaseId : String) (hlease : L.lease ≠ some leaseId) (k : ℕ)
      (hk : L.acked ≤ k) : Next L (.call (.useLease leaseId), .died) (L.cut k hk)

namespace Ledger
variable (L : Ledger β) {seq : ℕ} {entry : JournalEntry β}

@[simp] theorem length_records : L.records.length = L.log.length := by simp [records]

theorem record_eq (seq : ℕ) (hseq : 0 < seq) :
    L.record seq = (L.log[seq - 1]?).map fun entry => { entry with seq := seq } := by
  simp only [record, records, getElem?_mapIdx]
  rw [Nat.sub_add_cancel hseq]

theorem record_isSome (hseq : 0 < seq) : (L.record seq).isSome ↔ seq ≤ L.log.length := by
  rw [L.record_eq seq hseq, Option.isSome_map, isSome_getElem?]
  omega

theorem record_seq {r : JournalRecord β} (hseq : 0 < seq) (h : L.record seq = some r) :
    r.seq = seq := by
  rw [L.record_eq seq hseq, Option.map_eq_some_iff] at h
  obtain ⟨entry, -, rfl⟩ := h
  rfl

@[simp] theorem push_lease (entry : JournalEntry β) : (L.push entry).lease = L.lease := by
  unfold push
  split_ifs <;> rfl

@[simp] theorem push_acked (entry : JournalEntry β) : (L.push entry).acked = L.acked := by
  unfold push
  split_ifs <;> rfl

theorem push_log (h : L.log.length < u64Max) : (L.push entry).log = L.log ++ [entry] := by
  rw [push, dif_pos h]

theorem push_of_full (h : u64Max ≤ L.log.length) : L.push entry = L :=
  dif_neg (by omega)

theorem acknowledge_of_new (h : L.acked < seq ∧ seq ≤ L.log.length) :
    L.acknowledge seq = { L with acked := seq, acked_le := h.2 } :=
  dif_pos h

theorem acknowledge_of_not (h : ¬(L.acked < seq ∧ seq ≤ L.log.length)) : L.acknowledge seq = L :=
  dif_neg h

theorem record_push (h : L.log.length < u64Max) (hseq : 0 < seq) : (L.push entry).record seq =
      if seq = L.log.length + 1 then some { entry with seq := seq } else L.record seq := by
  rw [record_eq _ _ hseq, record_eq _ _ hseq, L.push_log h]
  split_ifs with hl
  · subst hl
    simp
  · by_cases hin : seq - 1 < L.log.length
    · rw [getElem?_append_left hin]
    · rw [getElem?_eq_none (by simp; omega), getElem?_eq_none (by omega)]

theorem record_cut {k : ℕ} (hk : L.acked ≤ k) (hseq : 0 < seq) :
    (L.cut k hk).record seq = if seq ≤ k then L.record seq else none := by
  rw [record_eq _ _ hseq, record_eq _ _ hseq]
  split_ifs with hle
  · simp only [cut]
    rw [getElem?_take_of_lt (by omega)]
  · simp only [cut]
    rw [getElem?_eq_none (by simp; omega)]
    rfl

end Ledger

end Intentd.JournalLedger
