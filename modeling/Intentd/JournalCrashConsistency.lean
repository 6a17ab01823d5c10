import Intentd.JournalLedger

/-!
# The journal survives the death of its process

The invariant has two forms. `Persisted` holds of the files at every instant,
so it is what a later process finds; `Live` holds of the open journal between
two operations and adds that the counters are the ledger's and that no
acknowledged record is left on disk. Each operation takes `Live` to `Live` and
passes only through files that are `Persisted` for a ledger the interrupted
operation is allowed to leave. The journal therefore refines the ledger, death
by death.
-/
namespace Intentd.JournalCrashConsistency
open InterruptiblePrograms JournalDirectory JournalOperations JournalRules
  JournalProcess Option List
open JournalLedger MachineWords LabelledRuns

variable {β σ : Type} {f : Files β} {L : Ledger β} {j : Journal} {seq : ℕ}

def noFaults : Command β → Call β → Prop := fun _ _ => False

/-- The files agree with the ledger past its acknowledged sequence. Up to it
there may be leftovers. -/
structure Persisted (f : Files β) (L : Ledger β) : Prop where
  state : openedState f = some ⟨L.lease, L.acked⟩
  zero : f (.record 0) = none
  record : ∀ n, L.acked < n → f (.record n) = (L.record n).map .record

structure Live (j : Journal) (f : Files β) (L : Ledger β) : Prop extends Persisted f L where
  journal : j = ⟨⟨L.lease, L.acked⟩, L.log.length⟩
  gone : ∀ n, n ≤ L.acked → f (.record n) = none

/-- The files a process may leave when it dies inside a command. -/
def DiesAs (L : Ledger β) (c : Command β) (f : Files β) : Prop :=
  ∃ L', Next L (c, .died) L' ∧ Persisted f L'

theorem Persisted.dies (h : Persisted f L) (c : Command β) : DiesAs L c f :=
  ⟨L, .diedBefore L c, h⟩

theorem Live.dies {c : Command β} (h : Live j f (L.apply c)) : DiesAs L c f :=
  ⟨_, .diedAfter L c, h.toPersisted⟩

theorem Persisted.contiguous (h : Persisted f L) : Contiguous f L.acked L.log.length := by
  refine ⟨L.acked_le, L.length_le, h.zero, fun n hn => ?_⟩
  rw [h.record n hn, isSome_map, L.record_isSome (by omega)]

theorem Persisted.ensured (h : Persisted f L) : Persisted (ensured f) L := by
  refine ⟨?_, by rw [ensured_record, h.zero], fun n hn => by rw [ensured_record, h.record n hn]⟩
  rw [openedState_ensured, h.state]

/-- Deleting acknowledged records changes nothing a reader sees. -/
theorem Persisted.without (h : Persisted f L) {p : Set ℕ} (hp : ∀ n ∈ p, n ≤ L.acked) :
    Persisted (without f p) L := by
  refine ⟨h.state, ?_, fun n hn => ?_⟩
  · exact without_record_none h.zero p
  · rw [without_record_notMem fun hmem => absurd (hp n hmem) (by omega), h.record n hn]

theorem Live.push (h : Live j f L) (hlt : L.log.length < u64Max) (entry : JournalEntry β) :
    Live { j with last := j.last + 1 } (appended f j.last entry) (L.push entry) := by
  obtain rfl := h.journal
  refine ⟨⟨?_, ?_, fun n hn => ?_⟩, ?_, fun n hn => ?_⟩
  · rw [openedState_appended, h.state, L.push_lease, L.push_acked]
  · rw [appended_record_ne (by omega), h.zero]
  · rw [L.push_acked] at hn
    rw [L.record_push hlt (by omega)]
    split_ifs with hl
    · subst hl
      rw [appended_record_self]
      rfl
    · rw [appended_record_ne hl, h.record n hn]
  · rw [L.push_lease, L.push_acked, L.push_log hlt, length_append, length_singleton]
  · rw [L.push_acked] at hn
    have hle := L.acked_le
    rw [appended_record_ne (by simp only; omega), h.gone n hn]

/-- While the acknowledged records go, oldest first, the saved acknowledgement
already covers them. -/
theorem Live.acknowledging (h : Live j f L) (hseq : L.acked < seq ∧ seq ≤ L.log.length) (k : ℕ)
    (hk : k ≤ seq) :
    Persisted (without (saved f ⟨L.lease, seq⟩) (Set.Ioc L.acked k)) (L.acknowledge seq) := by
  rw [L.acknowledge_of_new hseq]
  refine ⟨openedState_saved f _, ?_, fun n hn => ?_⟩
  · exact without_record_none (by rw [saved_record, h.zero]) _
  · have hn : seq < n := hn
    rw [without_record_notMem (by simp; omega), saved_record, h.record n (by omega)]
    rfl

theorem Live.acknowledged (h : Live j f L) (hseq : L.acked < seq ∧ seq ≤ L.log.length) :
    Live { j with state := ⟨L.lease, seq⟩ }
      (without (saved f ⟨L.lease, seq⟩) (Set.Ioc L.acked seq)) (L.acknowledge seq) := by
  obtain rfl := h.journal
  refine ⟨h.acknowledging hseq seq le_rfl, ?_, fun n hn => ?_⟩
  · rw [L.acknowledge_of_new hseq]
  · rw [L.acknowledge_of_new hseq] at hn
    by_cases hold : n ≤ L.acked
    · rw [without_record_notMem (by simp; omega), saved_record, h.gone n hold]
    · exact without_record_mem (by simp only [Set.mem_Ioc]; exact ⟨by omega, hn⟩)

/-- While a lease change deletes the old records, newest first, the old lease
keeps a leading part of them. -/
theorem Live.dropping (h : Live j f L) (k : ℕ) :
    Persisted (without f (Set.Ioc k L.log.length)) (L.cut (max k L.acked) (le_max_right _ _)) := by
  refine ⟨h.state, by rw [without_record_notMem (by simp), h.zero], fun n hn => ?_⟩
  have hn : L.acked < n := hn
  rw [L.record_cut _ (by omega)]
  split_ifs with hle
  · rw [without_record_notMem (by simp only [Set.mem_Ioc]; omega), h.record n hn]
  · by_cases hlen : n ≤ L.log.length
    · exact without_record_mem (by simp only [Set.mem_Ioc]; omega)
    · rw [without_record_notMem (by simp only [Set.mem_Ioc]; omega), h.record n hn]
      have hno : L.record n = none := by
        rw [← not_isSome_iff_eq_none, L.record_isSome (by omega)]
        exact hlen
      rw [hno]

/-- Once they are all gone, the new lease starts with no record on disk. -/
theorem Live.adopted {lo : ℕ} (h : Live j f L) (hlo : saturatingAdd L.acked 1 = lo + 1)
    (leaseId : String) :
    Live ⟨⟨some leaseId, 0⟩, 0⟩ (saved (without f (Set.Ioc lo L.log.length)) ⟨some leaseId, 0⟩)
      (Ledger.fresh (some leaseId)) := by
  have hno : ∀ n, without f (Set.Ioc lo L.log.length) (.record n) = none := by
    intro n
    by_cases hn : n ≤ L.acked
    · exact without_record_none (h.gone n hn) _
    · by_contra hs
      obtain ⟨hmem, hs⟩ := without_record_isSome.mp (isSome_iff_ne_none.mpr hs)
      rw [h.record n (by omega), isSome_map, L.record_isSome (by omega)] at hs
      unfold saturatingAdd at hlo
      exact hmem ⟨by omega, hs⟩
  refine ⟨⟨openedState_saved _ _, ?_, fun n hn => ?_⟩, rfl, fun n hn => ?_⟩
  · rw [saved_record, hno]
  · rw [saved_record, hno]
    rfl
  · rw [saved_record, hno]

variable {d : Directory β}

section Rules
variable {j : Journal} {L : Ledger β}

/-- No call fails, and the process dies only on files the command may leave. -/
abbrev WPs {α : Type} (L : Ledger β) (c : Command β) (m : Method (fileSystem β) σ Error α)
    (post : Except Error α → σ → Files β → Prop) (s : σ) (d : Directory β) : Prop :=
  WP (noFaults c) (DiesAs L c) m post s d

theorem wp_append_live (h : Live j (files d) L) (entry : JournalEntry β) :
    WPs L (.call (.append entry)) (append entry) (fun _ j f => Live j f (L.push entry)) j d := by
  have hl : j.last = L.log.length := by rw [h.journal]
  have hd := fun hlt : j.last < u64Max => h.push (hl ▸ hlt) entry
  refine wp_append (h.toPersisted.dies _) ?_ ?_ hd nofun nofun
  · intro hf
    rw [L.push_of_full (hl ▸ hf)]
    exact h
  · exact fun hlt => (hd hlt).dies (c := .call (.append entry))

theorem wp_acknowledge_live (h : Live j (files d) L) (seq : ℕ) :
    WPs L (.call (.acknowledge seq)) (acknowledge seq)
      (fun _ j f => Live j f (L.acknowledge seq)) j d := by
  obtain rfl := h.journal
  have hd := h.toPersisted.dies (.call (.acknowledge seq))
  by_cases ha : L.log.length < seq
  · refine wp_acknowledge_ahead ha hd ?_
    rw [L.acknowledge_of_not (by omega)]
    exact h
  · by_cases hold : seq ≤ L.acked
    · refine wp_acknowledge_old (not_lt.mp ha) hold hd ?_
      rw [L.acknowledge_of_not (by omega)]
      exact h
    · have hseq : L.acked < seq ∧ seq ≤ L.log.length := by omega
      refine wp_acknowledge_new rfl hseq.2 hseq.1 L.length_le hd ?_ ?_ nofun nofun nofun nofun
      · exact fun k _ hk => ⟨_, .diedAfter L _, h.acknowledging hseq k hk⟩
      · exact h.acknowledged hseq

theorem wp_useLease_live (h : Live j (files d) L) (leaseId : String) :
    WPs L (.call (.useLease leaseId)) (useLease leaseId)
      (fun _ j f => Live j f (L.adopt leaseId)) j d := by
  obtain rfl := h.journal
  by_cases hl : L.lease = some leaseId
  · refine wp_useLease_same hl (h.toPersisted.dies _) ?_
    rw [Ledger.adopt, if_pos hl]
    exact h
  · have ha : L.adopt leaseId = Ledger.fresh (some leaseId) := if_neg hl
    obtain ⟨lo, hlo⟩ : ∃ lo, saturatingAdd L.acked 1 = lo + 1 :=
      Nat.exists_eq_add_one.mpr (by unfold saturatingAdd u64Max; omega)
    have hle : lo ≤ L.log.length := by
      have := L.acked_le
      unfold saturatingAdd at hlo
      omega
    have hnew := h.adopted hlo leaseId
    refine wp_useLease_new hlo hle hl ?_ ?_ ?_ nofun nofun nofun
    · exact fun k _ _ => ⟨_, .diedDropping L leaseId hl _ _, h.dropping k⟩
    · exact ⟨_, .diedAfter L _, by rw [Ledger.apply, ha]; exact hnew.toPersisted⟩
    · rw [ha]
      exact hnew

/-- Every operation takes an open journal to an open journal, as the ledger says. -/
theorem wp_method_live (h : Live j (files d) L) (op : Operation β) :
    WPs L (.call op) op.method (fun _ j f => Live j f (L.apply (.call op))) j d := by
  cases op with
  | useLease leaseId =>
    refine Method.wp_seq (wp_useLease_live h leaseId) ?_ fun e t w hp => hp
    exact fun a t w hp => ⟨hp.dies (c := .call (.useLease leaseId)), hp⟩
  | append entry =>
    refine Method.wp_seq (wp_append_live h entry) ?_ fun e t w hp => hp
    exact fun a t w hp => ⟨hp.dies (c := .call (.append entry)), hp⟩
  | acknowledge seq => exact wp_acknowledge_live h seq

theorem wp_openJournal_live (h : Persisted (files d) L) (s : σ) :
    WPs L .reopen openJournal (fun r _ f => ∃ j, r = .ok j ∧ Live j f L) s d := by
  have hcut : ∀ p : Set ℕ, (∀ n ∈ p, n ≤ L.acked) → Persisted (without (ensured (files d)) p) L :=
    fun p hp => h.ensured.without hp
  refine wp_openJournal h.state h.contiguous (h.dies _) (fun p hp => (hcut p hp).dies _) ?_ nofun
  exact ⟨_, rfl, hcut _ fun n hn => hn, rfl, fun n hn => without_record_mem hn⟩

theorem Persisted.readsAs_drop {f : Files β} (h : Persisted f L) {m : ℕ} (hm : L.acked ≤ m) :
    ReadsAs f (inclusive (m + 1) L.log.length) (L.records.drop m) := by
  have hlen : (inclusive (m + 1) L.log.length).length = (L.records.drop m).length := by
    simp [inclusive]
  refine forall₂_iff_get.mpr ⟨hlen, fun i hi hi' => ?_⟩
  have hrec : L.record (m + 1 + i) = some ((L.records.drop m).get ⟨i, hi'⟩) := by
    rw [Ledger.record, get_eq_getElem, ← getElem?_eq_getElem, getElem?_drop]
    exact congrArg (L.records[·]?) (show m + 1 + i - 1 = m + i by omega)
  have hget : (inclusive (m + 1) L.log.length).get ⟨i, hi⟩ = m + 1 + i := by
    simp [inclusive]
  rw [hget, h.record _ (by omega), hrec]
  exact ⟨rfl, L.record_seq (by omega) hrec⟩

theorem Live.readsAs_mem {f : Files β} {seqs : List ℕ} {rs : List (JournalRecord β)}
    (h : Live j f L) (hre : ReadsAs f seqs rs) : ∀ r ∈ rs, L.acked < r.seq ∧ r ∈ L.records := by
  induction hre with
  | nil => nofun
  | @cons n r seqs rs hr _ ih =>
    refine forall_mem_cons.mpr ⟨?_, ih⟩
    obtain ⟨hf, rfl⟩ := hr
    have hnew : L.acked < r.seq := by
      by_contra hold
      rw [h.gone _ (not_lt.mp hold)] at hf
      cases hf
    rw [h.record _ hnew, map_eq_some_iff] at hf
    obtain ⟨r', hrec, hr'⟩ := hf
    cases hr'
    exact ⟨hnew, mem_of_getElem? hrec⟩

/-- An open journal returns what the ledger allows. Short of the top of the
range it returns no error. -/
theorem wp_recordsAfter_live (h : Live j (files d) L) (seq : ℕ) :
    WPs L .reopen (recordsAfter seq) (fun r _ _ => (∀ rs, r = .ok rs → L.Reads seq rs) ∧
      (max seq L.acked < u64Max → ∃ rs, r = .ok rs)) j d := by
  obtain rfl := h.journal
  refine wp_recordsAfter (h.toPersisted.dies _) ?_ ?_ nofun
  · intro rs hre
    refine ⟨fun rs' hrs' => ?_, fun _ => ⟨rs, rfl⟩⟩
    cases hrs'
    refine ⟨h.readsAs_mem hre, fun hlt => ?_⟩
    rw [saturatingAdd_of_lt hlt] at hre
    have hu : Relator.RightUnique fun n (r : JournalRecord β) =>
        files d (.record n) = some (.record r) ∧ r.seq = n := by
      intro n r r' hr hr'
      have heq := hr.1.symm.trans hr'.1
      exact Content.record.inj (some.inj heq)
    exact right_unique_forall₂' hu hre (h.toPersisted.readsAs_drop (le_max_right seq L.acked))
  · intro n hf hl e he
    refine ⟨nofun, fun hlt => ?_⟩
    rw [saturatingAdd_of_lt hlt] at hf
    have hs : (L.record n).isSome := (L.record_isSome (by omega)).mpr hl
    obtain ⟨r, hr⟩ := isSome_iff_exists.mp hs
    rw [h.record n (by omega), hr] at he
    have hok := decodeRecord_eq_ok.mpr ⟨rfl, L.record_seq (by omega) hr⟩
    rw [map_some, hok] at he
    cases he

end Rules

section Refinement

/-- The machine between two commands, seen as a ledger. -/
def Represents (m : Machine β) (L : Ledger β) : Prop :=
  Persisted (files m.directory) L ∧ ∀ j, m.journal = some j → Live j (files m.directory) L

theorem represents_new : Represents (Machine.new : Machine β) (Ledger.fresh none) := by
  refine ⟨⟨rfl, rfl, fun n _ => ?_⟩, nofun⟩
  rfl

variable {L : Ledger β}

/-- The journal refines the ledger: each command changes it as the ledger may change. -/
theorem represents_step {m m' : Machine β} {label : Command β × Ending} (h : Represents m L)
    (hs : Step noFaults m label m') : ∃ L', Next L label L' ∧ Represents m' L' := by
  cases hs with
  | opened he =>
    obtain ⟨-, hpo⟩ := Program.wp_sound (wp_openJournal_live h.1 ()) he
    obtain ⟨j, hr, hl⟩ := hpo _ rfl
    cases hr
    refine ⟨_, .completed L .reopen, hl.toPersisted, fun j' hj' => ?_⟩
    rw [← some.inj hj']
    exact hl
  | openDied he =>
    obtain ⟨⟨L', hn, hp⟩, -⟩ := Program.wp_sound (wp_openJournal_live h.1 ()) he
    exact ⟨L', hn, hp, nofun⟩
  | called he =>
    obtain ⟨-, hpo⟩ := Program.wp_sound (wp_method_live (h.2 _ rfl) _) he
    have hl := hpo _ rfl
    refine ⟨_, .completed L _, hl.toPersisted, fun j' hj' => ?_⟩
    rw [← some.inj hj']
    exact hl
  | callDied he =>
    obtain ⟨⟨L', hn, hp⟩, -⟩ := Program.wp_sound (wp_method_live (h.2 _ rfl) _) he
    exact ⟨L', hn, hp, nofun⟩

/-- Reading an open journal: what it returns the ledger allows, and it returns
an error at most at the top of the range. -/
structure ReadsFrom (j : Journal) (d : Directory β) (L : Ledger β) : Prop where
  reads : ∀ seq rs, (((recordsAfter seq).on j).run d).1.1 = .ok rs → L.Reads seq rs
  succeeds : ∀ seq, max seq L.acked < u64Max → ∃ rs, (((recordsAfter seq).on j).run d).1.1 = .ok rs

/-- What the next process finds: opening succeeds with the ledger's lease and
counters, the record files are exactly the records that are not acknowledged,
and they can be read. -/
def ReopensAs (d : Directory β) (L : Ledger β) : Prop :=
  ∃ d', (openJournal.on ()).run d = ((.ok ⟨⟨L.lease, L.acked⟩, L.log.length⟩, ()), d') ∧
    (∀ n, d'.lookup (.installed (.record n)) =
      if L.acked < n then (L.record n).map .record else none) ∧
    ReadsFrom ⟨⟨L.lease, L.acked⟩, L.log.length⟩ d' L

theorem Live.readsFrom {j : Journal} (h : Live j (files d) L) : ReadsFrom j d L := by
  have hrun :=
    fun seq => (Program.wp_sound (wp_recordsAfter_live h seq) (Program.run_exec _ _)).2 _ rfl
  exact ⟨fun seq => (hrun seq).1, fun seq => (hrun seq).2⟩

theorem Persisted.reopensAs (h : Persisted (files d) L) : ReopensAs d L := by
  let p := (openJournal (β := β)).on ()
  obtain ⟨j, hr, hl⟩ := (Program.wp_sound (wp_openJournal_live h ()) (Program.run_exec p d)).2 _ rfl
  have hj := hl.journal
  refine ⟨(p.run d).2, ?_, fun n => ?_, hj ▸ hl.readsFrom⟩
  · rw [← hj, ← hr]
  · split_ifs with hn
    · exact hl.record n hn
    · exact hl.gone n (not_lt.mp hn)

/-- However its processes die, a journal holds what a ledger with the same
history holds: the next open succeeds with the ledger's lease, counters and
unacknowledged records, and no open journal ever returns anything else. -/
theorem journal_refines_ledger {labels : List (Command β × Ending)} {m : Machine β}
    (h : Run (Step noFaults) Machine.new labels m) :
    ∃ L, Run Next (Ledger.fresh none) labels L ∧ ReopensAs m.directory L ∧
      ∀ j, m.journal = some j → ReadsFrom j m.directory L := by
  obtain ⟨L, hrun, hrep⟩ := h.simulation represents_new fun _ _ _ _ => represents_step
  exact ⟨L, hrun, hrep.1.reopensAs, fun j hj => (hrep.2 j hj).readsFrom⟩

/-- A process that opens a new directory, adopts a lease and dies in its first
append once the record is renamed. -/
theorem journal_refines_ledger_first_append : ∃ (m : Machine ℕ) (L : Ledger ℕ),
    Run Next (Ledger.fresh none) [(.reopen, .completed), (.call (.useLease "lease"), .completed),
      (.call (.append ⟨"agent", "workspace", none, "now", 7⟩), .died)] L ∧
    ReopensAs m.directory L ∧ ∀ j, m.journal = some j → ReadsFrom j m.directory L := by
  have hl : ∃ d : Directory ℕ, Run (Step noFaults) Machine.new
      [(.reopen, .completed), (.call (.useLease "lease"), .completed)]
      ⟨d, some ⟨⟨some "lease", 0⟩, 0⟩⟩ :=
    ⟨_, (Run.nil.snoc (reopen_step ∅ none)).snoc (call_step _ ⟨⟨none, 0⟩, 0⟩ (.useLease "lease"))⟩
  obtain ⟨d, hl⟩ := hl
  have ha : ∃ d', Step noFaults ⟨d, some ⟨⟨some "lease", 0⟩, 0⟩⟩
      (.call (.append ⟨"agent", "workspace", none, "now", 7⟩), .died) ⟨d', none⟩ :=
    ⟨_, .callDied (.answer (.answer (.answer (.answer (.die _ _)))))⟩
  obtain ⟨d', ha⟩ := ha
  obtain ⟨L, h⟩ := journal_refines_ledger (hl.snoc ha)
  exact ⟨_, L, h⟩

end Refinement

end Intentd.JournalCrashConsistency
