import Intentd.JournalProcess

/-!
# The journal when filesystem calls fail

A caller that gets an error carries on with the counters the failed operation
left, and later operations delete only the files those counters name. The
invariant therefore ties the files to the counters in both directions: every
record file lies between the acknowledged and the last sequence in memory, and
each of those sequences past the acknowledged one has its file. The state on
disk may be ahead of the one in memory, by an acknowledgement that was saved
and then reported as failed.

Two kinds of failure break the tie. A directory sync that fails right after the
rename leaves a record, or a new lease, on disk that the counters do not know;
a deletion that fails during an acknowledgement leaves a record the counters
have already passed. `tolerated` allows every other failure. Each record carries
the lease it was appended under, so that mixing two leases can be seen.
-/
namespace Intentd.JournalFaults
open InterruptiblePrograms JournalDirectory JournalOperations JournalRules JournalProcess
open MachineWords LabelledRuns

/-- What a record reports, with the lease it was appended under. -/
structure Stamped (β : Type) where
  lease : Option String
  body : β

variable {β σ : Type} {f : Files (Stamped β)} {j : Journal} {m : Machine (Stamped β)}

/-- A command of a caller that stamps its entries with the lease of its journal. -/
def StampedStep (faults : Command (Stamped β) → Call (Stamped β) → Prop)
    (m : Machine (Stamped β)) (label : Command (Stamped β) × Ending)
    (m' : Machine (Stamped β)) : Prop :=
  Step faults m label m' ∧ ∀ entry j, label.1 = .call (.append entry) → m.journal = some j →
    entry.body.lease = j.state.leaseId

def anyFaults : Command (Stamped β) → Call (Stamped β) → Prop := fun _ _ => True

/-- No directory sync fails right after the rename of an append or of a lease
change, and no deletion fails during an acknowledgement. -/
def tolerated : Command (Stamped β) → Call (Stamped β) → Prop
  | .call (.append _), .syncDir (some _) => False
  | .call (.useLease _), .syncDir (some _) => False
  | .call (.acknowledge _), .remove _ => False
  | _, _ => True

/-- No record is returned under another lease than its own, and opening the
directory reports no gap, whatever fails while reading or opening. -/
structure Unmixed (m : Machine (Stamped β)) : Prop where
  leases : ∀ j, m.journal = some j → ∀ faults seq rs j' d',
    Program.Exec (S := fileSystem (Stamped β)) faults ((recordsAfter seq).on j) m.directory
      (.returned (.ok rs, j')) d' → ∀ r ∈ rs, r.body.lease = j.state.leaseId
  opens : ∀ faults d', ¬Program.Exec (S := fileSystem (Stamped β)) faults (openJournal.on ())
    m.directory (.returned (.error (.corrupt "gap"), ())) d'

/-- Record files that all belong to one lease. -/
def StampedBy (lease : Option String) (f : Files (Stamped β)) : Prop :=
  ∀ n r, f (.record n) = some (.record r) → r.body.lease = lease

structure Closed (f : Files (Stamped β)) : Prop where
  opens : ∃ st top, openedState f = some st ∧ Contiguous f st.acked top ∧ StampedBy st.leaseId f

structure Open (j : Journal) (f : Files (Stamped β)) : Prop where
  state : ∃ acked, openedState f = some ⟨j.state.leaseId, acked⟩ ∧ j.state.acked ≤ acked ∧
    acked ≤ u64Max
  acked_le : saturatingAdd j.state.acked 1 ≤ j.last + 1
  last_le : j.last ≤ u64Max
  bounds : ∀ n, (f (.record n)).isSome → saturatingAdd j.state.acked 1 ≤ n ∧ n ≤ j.last
  present : ∀ n, j.state.acked < n → n ≤ j.last → (f (.record n)).isSome
  stamped : StampedBy j.state.leaseId f

variable {lease : Option String}

theorem StampedBy.without (h : StampedBy lease f) (p : Set ℕ) : StampedBy lease (without f p) :=
  fun n r hr => h n r (without_record_eq_some.mp hr).2

theorem saturatingAdd_pos (n : ℕ) : 0 < saturatingAdd n 1 := by
  unfold saturatingAdd u64Max
  omega

theorem Open.closed (h : Open j f) : Closed f := by
  obtain ⟨acked, hst, hle, hmax⟩ := h.state
  refine ⟨⟨_, max acked j.last, hst, ⟨le_max_left _ _, ?_, ?_, fun n hn => ?_⟩, h.stamped⟩⟩
  · exact max_le hmax h.last_le
  · by_contra hz
    have hpos := (h.bounds 0 (Option.isSome_iff_ne_none.mpr hz)).1
    exact absurd (saturatingAdd_pos j.state.acked) (by omega)
  · have hn : acked < n := hn
    constructor
    · exact fun hs => (h.bounds n hs).2.trans (le_max_right _ _)
    · intro htop
      exact h.present n (by omega) (by omega)

theorem Open.dropped (h : Open j f) {k : ℕ} (hlo : saturatingAdd j.state.acked 1 ≤ k + 1)
    (hk : k ≤ j.last) : Open { j with last := k } (without f (Set.Ioc k j.last)) := by
  refine ⟨h.state, hlo, hk.trans h.last_le, fun n hs => ?_, fun n hn hle => ?_, h.stamped.without _⟩
  · obtain ⟨hmem, hs⟩ := without_record_isSome.mp hs
    have hb := h.bounds n hs
    exact ⟨hb.1, not_lt.mp fun hlt => hmem ⟨hlt, hb.2⟩⟩
  · have hle : n ≤ k := hle
    rw [without_record_notMem fun hmem => absurd hmem.1 (by omega)]
    exact h.present n hn (by omega)

variable {entry : JournalEntry (Stamped β)}

theorem Open.appended (h : Open j f) (hlt : j.last < u64Max)
    (he : entry.body.lease = j.state.leaseId) :
    Open { j with last := j.last + 1 } (appended f j.last entry) := by
  have ha := h.acked_le
  refine ⟨?_, Nat.le_succ_of_le ha, hlt, fun n hs => ?_, fun n hn hle => ?_, fun n r hr => ?_⟩
  · rw [openedState_appended]
    exact h.state
  · by_cases hl : n = j.last + 1
    · subst hl
      exact ⟨ha, le_rfl⟩
    · rw [appended_record_ne hl] at hs
      have hb := h.bounds n hs
      exact ⟨hb.1, Nat.le_succ_of_le hb.2⟩
  · by_cases hl : n = j.last + 1
    · subst hl
      rw [appended_record_self]
      rfl
    · rw [appended_record_ne hl]
      exact h.present n hn (Nat.le_of_lt_succ (lt_of_le_of_ne hle hl))
  · by_cases hl : n = j.last + 1
    · subst hl
      rw [appended_record_self] at hr
      cases hr
      exact he
    · rw [appended_record_ne hl] at hr
      exact h.stamped n r hr

/-- While an acknowledgement of `seq` deletes records, oldest first, the journal
is as good as one that acknowledged only the deleted ones. -/
theorem Open.acknowledging (h : Open j f) {seq k : ℕ} (hseq : seq ≤ j.last)
    (hlo : j.state.acked ≤ k) (hk : k ≤ seq) (hnew : j.state.acked < seq) :
    Open ⟨⟨j.state.leaseId, k⟩, j.last⟩
      (without (saved f ⟨j.state.leaseId, seq⟩) (Set.Ioc j.state.acked k)) := by
  have hl := h.last_le
  have hsat : saturatingAdd k 1 ≤ k + 1 := by
    unfold saturatingAdd
    omega
  refine ⟨⟨seq, openedState_saved f _, hk, by omega⟩, by simp only; omega, hl, fun n hs => ?_,
    fun n hn hle => ?_, StampedBy.without ?_ _⟩
  · obtain ⟨hmem, hs⟩ := without_record_isSome.mp hs
    rw [saved_record] at hs
    have hb := h.bounds n hs
    rw [saturatingAdd_of_lt (by omega)] at hb
    have hkn : k < n := not_le.mp fun hle => hmem ⟨hb.1, hle⟩
    exact ⟨hsat.trans hkn, hb.2⟩
  · have hn : k < n := hn
    rw [without_record_notMem fun hmem => absurd hmem.2 (by omega), saved_record]
    exact h.present n (by omega) hle
  · intro n r hr
    exact h.stamped n r hr

theorem Open.fresh {lo : ℕ} (h : Open j f) (hlo : saturatingAdd j.state.acked 1 = lo + 1)
    (leaseId : String) :
    Open ⟨⟨some leaseId, 0⟩, 0⟩ (saved (without f (Set.Ioc lo j.last)) ⟨some leaseId, 0⟩) := by
  have hno : ∀ n, without f (Set.Ioc lo j.last) (.record n) = none := by
    intro n
    by_contra hs
    obtain ⟨hmem, hs⟩ := without_record_isSome.mp (Option.isSome_iff_ne_none.mpr hs)
    have hb := h.bounds n hs
    exact hmem ⟨by omega, hb.2⟩
  refine ⟨⟨0, openedState_saved _ _, le_rfl, Nat.zero_le _⟩, ?_, Nat.zero_le _, fun n hs => ?_,
    fun n hn hle => absurd hle (by simp only at hn ⊢; omega), fun n r hr => ?_⟩
  · rw [saturatingAdd_of_lt (by simp [u64Max])]
  · rw [saved_record, hno] at hs
    cases hs
  · rw [saved_record, hno] at hr
    cases hr

section Rules
variable {d : Directory (Stamped β)} {j : Journal} {faults : Call (Stamped β) → Prop}

theorem wp_append_open (h : Open j (files d)) (he : entry.body.lease = j.state.leaseId) :
    WP (tolerated (.call (.append entry))) Closed (append entry) (fun _ j f => Open j f) j d := by
  refine wp_append h.closed (fun _ => h) ?_ ?_ nofun fun _ _ _ _ => h
  · exact fun hlt => (h.appended hlt he).closed
  · exact fun hlt => h.appended hlt he

theorem wp_acknowledge_open (h : Open j (files d)) (seq : ℕ) :
    WP (tolerated (.call (.acknowledge seq))) Closed (acknowledge seq) (fun _ j f =>
      Open j f) j d := by
  by_cases ha : j.last < seq
  · exact wp_acknowledge_ahead ha h.closed h
  · by_cases hold : seq ≤ j.state.acked
    · exact wp_acknowledge_old (not_lt.mp ha) hold h.closed h
    · have hseq := not_lt.mp ha
      have hnew := not_le.mp hold
      have hcut := fun k hlo hk => h.acknowledging (k := k) hseq hlo hk hnew
      refine wp_acknowledge_new rfl hseq hnew h.last_le h.closed ?_ ?_ ?_ nofun ?_ fun _ _ _ _ => h
      · exact fun k hlo hk => (hcut k hlo hk).closed
      · exact hcut seq hnew.le le_rfl
      · -- The saved acknowledgement is on disk only; memory still holds the old one.
        intro _ e
        have hs := hcut _ le_rfl hnew.le
        rwa [Set.Ioc_self, without_empty] at hs
      · exact fun _ e => hcut seq hnew.le le_rfl

theorem wp_useLease_open (h : Open j (files d)) (leaseId : String) :
    WP (tolerated (.call (.useLease leaseId))) Closed (useLease leaseId) (fun _ j f => Open j f)
      j d := by
  by_cases hl : j.state.leaseId = some leaseId
  · exact wp_useLease_same hl h.closed h
  · obtain ⟨lo, hlo⟩ := Nat.exists_eq_add_one.mpr (saturatingAdd_pos j.state.acked)
    have hle : lo ≤ j.last := by
      have ha := h.acked_le
      omega
    have hd : ∀ k, lo ≤ k → k ≤ j.last →
        Open { j with last := k } (without (files d) (Set.Ioc k j.last)) :=
      fun k hk hkl => h.dropped (by omega) hkl
    refine wp_useLease_new hlo hle hl ?_ ?_ ?_ ?_ nofun ?_
    · exact fun k hk hkl => (hd k hk hkl).closed
    · exact (h.fresh hlo leaseId).closed
    · exact h.fresh hlo leaseId
    · exact fun k hk hkl _ e => hd (k + 1) (by omega) hkl
    · exact fun _ _ _ _ => hd lo le_rfl hle

theorem wp_method_open (h : Open j (files d)) {op : Operation (Stamped β)}
    (he : ∀ entry, op = .append entry → entry.body.lease = j.state.leaseId) :
    WP (tolerated (.call op)) Closed op.method (fun _ j f => Open j f) j d := by
  cases op with
  | useLease leaseId =>
    refine Method.wp_seq (wp_useLease_open h leaseId) ?_ fun e t w hp => hp
    exact fun a t w hp => ⟨hp.closed, hp⟩
  | append entry =>
    refine Method.wp_seq (wp_append_open h (he entry rfl)) ?_ fun e t w hp => hp
    exact fun a t w hp => ⟨hp.closed, hp⟩
  | acknowledge seq => exact wp_acknowledge_open h seq

theorem wp_openJournal_closed (h : Closed (files d)) (s : σ) :
    WP faults Closed openJournal (fun r _ f => match r with
      | .ok j => Open j f
      | .error e => (∃ context error, e = .io context error) ∧ Closed f) s d := by
  obtain ⟨st, top, hst, hc, hsta⟩ := h.opens
  have hre : ∀ n, ensured (files d) (.record n) = files d (.record n) :=
    ensured_record (files d)
  have hcut : ∀ p : Set ℕ, (∀ n ∈ p, n ≤ st.acked) → Closed (without (ensured (files d)) p) := by
    intro p hp
    refine ⟨st, top, (openedState_ensured _).trans hst,
      ⟨hc.acked_le, hc.top_le, ?_, fun n hn => ?_⟩,
      StampedBy.without (fun n r hr => hsta n r (hre n ▸ hr)) p⟩
    · exact without_record_none ((hre 0).trans hc.zero) p
    · rw [without_record_notMem fun hmem => absurd (hp n hmem) (by omega), hre, hc.isSome n hn]
  refine wp_openJournal hst hc h hcut ?_ ?_
  · have hsat : saturatingAdd st.acked 1 ≤ st.acked + 1 := by
      unfold saturatingAdd
      omega
    refine ⟨⟨st.acked, (openedState_ensured _).trans hst, le_rfl, ?_⟩, ?_, hc.top_le,
      fun n hs => ?_, fun n hn hle => ?_, StampedBy.without (fun n r hr => hsta n r (hre n ▸ hr)) _⟩
    · exact hc.acked_le.trans hc.top_le
    · exact hsat.trans (Nat.succ_le_succ hc.acked_le)
    · obtain ⟨hn, hs⟩ := without_record_isSome.mp hs
      rw [hre, hc.isSome n (not_le.mp hn)] at hs
      exact ⟨hsat.trans (Nat.succ_le_of_lt (not_le.mp hn)), hs⟩
    · have hmem : n ∉ Set.Iic st.acked := not_le.mpr hn
      rw [without_record_notMem hmem, hre, hc.isSome n hn]
      exact hle
  · intro call _ context e
    exact ⟨⟨⟨context, e, rfl⟩, h⟩, fun p hp => ⟨⟨context, e, rfl⟩, hcut p hp⟩⟩

theorem StampedBy.readsAs {f : Files (Stamped β)} {seqs : List ℕ}
    {rs : List (JournalRecord (Stamped β))} (h : StampedBy lease f) (hre : ReadsAs f seqs rs) :
    ∀ r ∈ rs, r.body.lease = lease := by
  induction hre with
  | nil => nofun
  | @cons n r seqs rs hr _ ih => exact List.forall_mem_cons.mpr ⟨h n r hr.1, ih⟩

theorem wp_recordsAfter_open (h : Open j (files d)) (seq : ℕ) :
    WP faults Closed (recordsAfter seq) (fun r _ _ =>
      ∀ rs, r = .ok rs → ∀ x ∈ rs, x.body.lease = j.state.leaseId) j d := by
  refine wp_recordsAfter h.closed ?_ (fun _ _ _ _ _ => nofun) fun _ _ _ _ => nofun
  intro rs hr rs' hrs'
  cases hrs'
  exact h.stamped.readsAs hr

end Rules

/-- The machine between two commands. -/
def Tied (m : Machine (Stamped β)) : Prop :=
  Closed (files m.directory) ∧ ∀ j, m.journal = some j → Open j (files m.directory)

theorem tied_new : Tied (Machine.new : Machine (Stamped β)) := by
  refine ⟨⟨_, 0, rfl, ⟨le_rfl, Nat.zero_le _, rfl, fun n hn => ?_⟩, nofun⟩, nofun⟩
  exact ⟨nofun, fun hle => absurd hn (by simp only; omega)⟩

theorem tied_step {m' : Machine (Stamped β)} {label : Command (Stamped β) × Ending} (h : Tied m)
    (hs : StampedStep tolerated m label m') : Tied m' := by
  obtain ⟨hs, hst⟩ := hs
  cases hs with
  | @opened d d' _ r he =>
    obtain ⟨hc, hp⟩ := Program.wp_sound (wp_openJournal_closed h.1 ()) he
    refine ⟨hc, fun j hj => ?_⟩
    cases r with
    | error e => cases hj
    | ok j' =>
      rw [← Option.some.inj hj]
      exact hp _ rfl
  | openDied he => exact ⟨(Program.wp_sound (wp_openJournal_closed h.1 ()) he).1, nofun⟩
  | @called d d' j j' op r he =>
    obtain ⟨hc, hp⟩ :=
      Program.wp_sound (wp_method_open (h.2 j rfl) fun e hop => hst e j (by rw [hop]) rfl) he
    refine ⟨hc, fun j'' hj => ?_⟩
    rw [← Option.some.inj hj]
    exact hp _ rfl
  | @callDied d d' j op he =>
    exact ⟨(Program.wp_sound (wp_method_open (h.2 j rfl) fun e hop => hst e j (by rw [hop]) rfl)
      he).1, nofun⟩

theorem Tied.unmixed (h : Tied m) : Unmixed m := by
  refine ⟨fun j hj faults seq rs j' d' he => ?_, fun faults d' he => ?_⟩
  · exact (Program.wp_sound (wp_recordsAfter_open (h.2 j hj) seq) he).2 _ rfl rs rfl
  · obtain ⟨⟨_, _, hio⟩, -⟩ := (Program.wp_sound (wp_openJournal_closed h.1 ()) he).2 _ rfl
    cases hio

/-- As long as only tolerated calls fail, no lease is mixed into another and the
directory never shows a gap, however the caller carries on. -/
theorem unmixed_of_tolerated {labels : List (Command (Stamped β) × Ending)}
    {m : Machine (Stamped β)} (h : Run (StampedStep tolerated) Machine.new labels m) : Unmixed m :=
  (h.invariant tied_new fun _ _ _ => tied_step).unmixed

def stray : JournalEntry (Stamped Unit) := ⟨"agent", "workspace", none, "now", ⟨some "a", ()⟩⟩

/-- A lease change that cannot delete a record is tolerated; it is made again, and succeeds. -/
theorem unmixed_of_failed_lease_change : ∃ m : Machine (Stamped Unit),
    Run (StampedStep tolerated) Machine.new
      [(.reopen, .completed), (.call (.useLease "a"), .completed),
        (.call (.append stray), .completed),
        (.call (.useLease "b"), .completed), (.call (.useLease "b"), .completed)] m ∧
      m.journal = some ⟨⟨some "b", 0⟩, 0⟩ ∧ Unmixed m := by
  have hr : StampedStep tolerated ⟨(∅ : Directory (Stamped Unit)), none⟩
      (.reopen, .completed) _ := ⟨reopen_step ∅ none, nofun⟩
  have hl (d : Directory (Stamped Unit)) (j : Journal) (leaseId : String) :
      StampedStep tolerated ⟨d, some j⟩ (.call (.useLease leaseId), .completed) _ :=
    ⟨call_step d j _, nofun⟩
  have ha (d : Directory (Stamped Unit)) : StampedStep tolerated ⟨d, some ⟨⟨some "a", 0⟩, 0⟩⟩
      (.call (.append stray), .completed) _ :=
    ⟨call_step d _ _, fun entry j he hj => by cases he; cases hj; rfl⟩
  have hf (d : Directory (Stamped Unit)) : StampedStep tolerated ⟨d, some ⟨⟨some "a", 0⟩, 1⟩⟩
      (.call (.useLease "b"), .completed) ⟨d, some ⟨⟨some "a", 0⟩, 1⟩⟩ :=
    ⟨.called (.fault "failed" trivial (.done _ _)), nofun⟩
  have hrun := Run.nil.snoc hr |>.snoc (hl _ ⟨⟨none, 0⟩, 0⟩ "a") |>.snoc (ha _) |>.snoc (hf _)
    |>.snoc (hl _ _ "b")
  exact ⟨_, hrun, rfl, unmixed_of_tolerated hrun⟩

/-- A record whose append failed at the directory sync survives a lease change,
since the counter never moved past it, and is returned under the new lease. -/
theorem unsynced_append_mixes_leases : ∃ m : Machine (Stamped Unit),
    Run (StampedStep anyFaults) Machine.new [(.reopen, .completed),
        (.call (.useLease "a"), .completed),
        (.call (.append stray), .completed), (.call (.useLease "b"), .completed),
        (.reopen, .completed)] m ∧ ¬Unmixed m := by
  have ha : ∀ d : Directory (Stamped Unit),
      StampedStep anyFaults ⟨d, some ⟨⟨some "a", 0⟩, 0⟩⟩ (.call (.append stray), .completed)
        ⟨installed d (.record 1) (.record { stray with seq := 1 }), some ⟨⟨some "a", 0⟩, 0⟩⟩ := by
    intro d
    refine ⟨.called (r := .error (.io "sync directory" "failed")) ?_, fun entry j he hj => ?_⟩
    · exact .answer (.answer (.answer (.answer (.fault "failed" trivial (.done _ _)))))
    · cases he
      cases hj
      rfl
  have hr (d : Directory (Stamped Unit)) (h : Option Journal) :
      StampedStep anyFaults ⟨d, h⟩ (.reopen, .completed) _ := ⟨reopen_step d h, nofun⟩
  have hl (d : Directory (Stamped Unit)) (j : Journal) (leaseId : String) :
      StampedStep anyFaults ⟨d, some j⟩ (.call (.useLease leaseId), .completed) _ :=
    ⟨call_step d j _, nofun⟩
  have hrun := Run.nil.snoc (hr ∅ none) |>.snoc (hl _ ⟨⟨none, 0⟩, 0⟩ "a")
    |>.snoc (ha _) |>.snoc (hl _ ⟨⟨some "a", 0⟩, 0⟩ "b") |>.snoc (hr _ _)
  refine ⟨_, hrun, fun h => ?_⟩
  have hre := h.leases ⟨⟨some "b", 0⟩, 1⟩ rfl (fun _ => True) 0 [{ stray with seq := 1 }]
    ⟨⟨some "b", 0⟩, 1⟩ _ (Program.run_exec _ _)
  exact absurd (hre _ (List.mem_singleton.mpr rfl)) (by decide)

end Intentd.JournalFaults
