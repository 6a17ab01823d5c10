import Intentd.FinalStops

/-!
# A final stop settles once

Whoever settles a final stop claims it first, and a claim succeeds once, so no
interleaving settles a stop twice. Nor is a settled stop queued again by a request or a
load: both look at the claims in the step that queues.
-/
namespace Intentd.FinalStopSettling
open QueuedStops FinalStops Shared

attribute [local simp] Shared.queuedId

variable {j : ℕ}

section
variable (head : Shared) (i : ℕ)

@[simp] theorem claim_settledFinals (dequeue grace : Bool) :
    (head.claimFinalSettleWith i dequeue grace).2.settledFinals = insert i head.settledFinals := by
  by_cases h : i ∈ head.settledFinals <;> simp [claimFinalSettleWith, h]

theorem claim_iff (dequeue grace : Bool) :
    (head.claimFinalSettleWith i dequeue grace).1 = true ↔ i ∉ head.settledFinals := by
  unfold claimFinalSettleWith
  split_ifs with h <;> simp [h]

theorem inGrace_subset_claim (dequeue grace : Bool) :
    head.inGrace ⊆ (head.claimFinalSettleWith i dequeue grace).2.inGrace := by
  unfold claimFinalSettleWith
  split_ifs <;> simp

theorem claim_queuedId (dequeue grace : Bool)
    (h : (head.claimFinalSettleWith i dequeue grace).2.queuedId = some j) :
    head.queuedId = some j := by
  unfold claimFinalSettleWith at h
  split_ifs at h <;> first | exact h | simp at h

theorem queueFinalStopUnless_settledFinals (durable unlessSettled : Bool) :
    (head.queueFinalStopUnless i durable unlessSettled).2.settledFinals = head.settledFinals := by
  unfold queueFinalStopUnless
  split_ifs <;> rfl

theorem queueFinalStopUnless_inGrace (durable unlessSettled : Bool) :
    (head.queueFinalStopUnless i durable unlessSettled).2.inGrace = head.inGrace := by
  unfold queueFinalStopUnless
  split_ifs <;> rfl

theorem queueUnlessSettled_queuedId (durable : Bool)
    (h : (head.queueFinalStopUnless i durable true).2.queuedId = some j) :
    head.queuedId = some j ∨ j = i ∧ i ∉ head.settledFinals := by
  unfold queueFinalStopUnless at h
  split_ifs at h with hs
  · exact .inl h
  · refine .inr ⟨by simpa using h.symm, by simpa using hs⟩

theorem confirmStop_queuedId (h : (head.confirmStop i).queuedId = some j) :
    head.queuedId = some j := by
  unfold confirmStop at h
  split_ifs at h
  · simp at h
  · exact h

theorem confirmStop_sets : (head.confirmStop i).settledFinals = head.settledFinals ∧
    (head.confirmStop i).inGrace = head.inGrace := by
  unfold confirmStop
  split_ifs <;> exact ⟨rfl, rfl⟩

end

@[simp] theorem setTask_tasks (s : System) (k : ℕ) (x : Task) (k' : ℕ) :
    (s.setTask k x).tasks k' = if k' = k then x else s.tasks k' := by
  unfold System.setTask
  by_cases hk : k' = k
  · subst hk
    simp
  · simp [hk]

@[simp] def stopOf : Task → Option ℕ
  | .idle => none
  | .requested i _ | .bindRequested i _ | .ackDropping i | .ackDropped i _ | .ackSettled i
  | .graceSleeping i _ | .graceDropping i | .graceDropped i | .loadDropping i _
  | .loadDropped i _ => some i
  | .bindListed record | .loadListed record => record.map FinalStopRecord.stopId

/-- Every stop was drawn once, and a stop whose settling step ran is claimed. -/
structure Once (s : System) : Prop where
  nodup : s.settles.Nodup
  claimed : ∀ i ∈ s.settles, i ∈ s.head.settledFinals
  settled : ∀ i ∈ s.head.settledFinals, i ∈ s.used
  tasks : ∀ k i, stopOf (s.tasks k) = some i → i ∈ s.used
  sent : ∀ stop ∈ s.sent, stop.stopId ∈ s.used
  record : ∀ record, s.record = some record → record.stopId ∈ s.used
  queued : ∀ i, s.head.queuedId = some i → i ∈ s.used

theorem once_initial (record : Option FinalStopRecord) : Once (.initial record) := by
  constructor <;> simp [System.initial, initial]
  rintro r rfl
  simp

section
variable {s : System} {k i : ℕ} {stop : QueuedStop} {tuning : Tuning} {l : Label} {t : System}

section

variable (h : Once s)
include h

theorem Once.setTask {x : Task} (hx : ∀ i, stopOf x = some i → i ∈ s.used) : Once (s.setTask k x) :=
  { h with
    tasks := fun k' i hi => by
      rw [setTask_tasks] at hi
      split_ifs at hi
      · exact hx i hi
      · exact h.tasks k' i hi }

/-- The step that claims a stop runs its settling step; no other does. -/
theorem Once.settle (hi : i ∈ s.used) {dequeue grace : Bool} {head : Shared}
    (hset : head.settledFinals = insert i s.head.settledFinals)
    (hq : ∀ j, head.queuedId = some j → s.head.queuedId = some j) :
    Once (s.settle ((s.head.claimFinalSettleWith i dequeue grace).1, head) i) := by
  have hc : ∀ j ∈ s.settles, j ∈ head.settledFinals := by
    intro j hj
    rw [hset]
    exact Finset.mem_insert_of_mem (h.claimed j hj)
  constructor
  · change (if _ then s.settles ++ [i] else s.settles).Nodup
    split_ifs with hcl
    · rw [claim_iff] at hcl
      exact List.nodup_append.mpr ⟨h.nodup, by simp, by
        rintro a ha b hb rfl
        rw [List.mem_singleton.mp hb] at ha
        exact hcl (h.claimed i ha)⟩
    · exact h.nodup
  · intro j hj
    change j ∈ (if _ then s.settles ++ [i] else s.settles) at hj
    split_ifs at hj
    · rcases List.mem_append.mp hj with hj | hj
      · exact hc j hj
      · rw [List.mem_singleton.mp hj]
        change i ∈ head.settledFinals
        simp [hset]
    · exact hc j hj
  · intro j hj
    change j ∈ head.settledFinals at hj
    rw [hset, Finset.mem_insert] at hj
    rcases hj with rfl | hj
    · exact hi
    · exact h.settled j hj
  · exact h.tasks
  · exact h.sent
  · exact h.record
  · exact fun j hj => h.queued j (hq j hj)

theorem Once.head {head : Shared} (hset : head.settledFinals = s.head.settledFinals)
    (hq : ∀ j, head.queuedId = some j → j ∈ s.used) : Once { s with head := head } :=
  { h with
    claimed := fun j hj => by
      change j ∈ head.settledFinals
      rw [hset]
      exact h.claimed j hj
    settled := fun j hj => h.settled j (hset ▸ hj)
    queued := hq }

theorem Once.queueFinal (hi : i ∈ s.used) (durable unlessSettled : Bool) :
    Once { s with head := (s.head.queueFinalStopUnless i durable unlessSettled).2 } := by
  apply h.head (queueFinalStopUnless_settledFinals _ _ _ _)
  intro j hj
  unfold queueFinalStopUnless at hj
  split_ifs at hj
  · exact h.queued j hj
  · obtain rfl : i = j := by simpa using hj
    exact hi

theorem Once.use (newId : ℕ) : Once { s with used := newId :: s.used } where
  nodup := h.nodup
  claimed := h.claimed
  settled := fun i hi => List.mem_cons_of_mem _ (h.settled i hi)
  tasks := fun k i hi => List.mem_cons_of_mem _ (h.tasks k i hi)
  sent := fun stop hs => List.mem_cons_of_mem _ (h.sent stop hs)
  record := fun r hr => List.mem_cons_of_mem _ (h.record r hr)
  queued := fun i hi => List.mem_cons_of_mem _ (h.queued i hi)

theorem Once.requestWith (newId : ℕ) (ok : Bool) {next : ℕ → Bool → Task} (k : ℕ)
    (hn : ∀ i durable, stopOf (next i durable) = some i) :
    Once (s.requestWith newId ok next k) := by
  have huse := h.use newId
  have hre : (s.recorded newId).stopId ∈ newId :: s.used := by
    unfold System.recorded
    cases hr : s.record with
    | none => simp
    | some r => exact List.mem_cons_of_mem _ (h.record r hr)
  unfold System.requestWith
  split_ifs
  · have ht := huse.setTask (k := k) (x := next (s.recorded newId).stopId true) (by
      intro i hi
      rw [hn] at hi
      cases hi
      exact hre)
    exact { ht with
      record := fun r hr => by
        cases hr
        exact hre }
  · exact huse.setTask (by
      intro i hi
      rw [hn] at hi
      cases hi
      exact List.mem_cons_self)

theorem Once.dropRecord (i : ℕ) (ok : Bool) : Once (s.dropRecord i ok) := by
  unfold System.dropRecord
  split_ifs
  · exact { h with record := nofun }
  · exact h

theorem Once.claim (hi : i ∈ s.used) (dequeue grace : Bool) :
    Once (s.settle (s.head.claimFinalSettleWith i dequeue grace) i) :=
  h.settle hi (claim_settledFinals s.head i dequeue grace)
    fun _ hj => claim_queuedId s.head i dequeue grace hj

theorem Once.ackStep (tuning : Tuning) (k grace : ℕ) (hse : stop ∈ s.sent) (speaksFinal : Bool) :
    Once (ackStep tuning s k grace stop speaksFinal) := by
  have hi := h.sent stop hse
  have ht : ∀ j, some stop.stopId = some j → j ∈ s.used := by
    rintro j ⟨⟩
    exact hi
  unfold FinalStops.ackStep
  split_ifs
  · exact h.setTask ht
  · have hs := (h.claim hi false true).setTask (k := k) (x := .ackSettled stop.stopId) ht
    have hg := hs.setTask (k := grace)
      (x := .graceSleeping stop.stopId (s.now + tuning.legacyPushGrace)) ht
    simp only
    split_ifs
    · exact { hg with }
    · exact hs
  · exact (h.claim hi false false).setTask ht
  · exact h.setTask ht

theorem Once.checkStep (tuning : Tuning) {record : Option FinalStopRecord}
    (hk : s.tasks k = .loadListed record) : Once (checkStep tuning s k record) := by
  have hid : Once (s.setTask k .idle) := h.setTask (by simp)
  cases record with
  | none => exact hid
  | some r =>
    have hr : r.stopId ∈ s.used := h.tasks k r.stopId (by simp [hk])
    have ht : ∀ j, some r.stopId = some j → j ∈ s.used := by
      rintro j ⟨⟩
      exact hr
    unfold FinalStops.checkStep
    simp only
    split_ifs
    · exact hid
    · exact h.setTask ht
    · exact h.setTask ht
    · exact hid.queueFinal hr true true

theorem Once.commitStep (k : ℕ) (ok : Bool) : Once (commitStep s k ok) := by
  have hu : ∀ i, stopOf (s.tasks k) = some i → ∀ j, some i = some j →
      j ∈ (s.dropRecord i ok).used := by
    rintro i hi j ⟨⟩
    unfold System.dropRecord
    split_ifs <;> exact h.tasks k i hi
  unfold FinalStops.commitStep
  split
  · next i hi => exact (h.dropRecord i ok).setTask (hu i (by simp [hi]))
  · next i pastBound hi => exact (h.dropRecord i ok).setTask (hu i (by simp [hi]))
  · next i hi => exact (h.dropRecord i ok).setTask (hu i (by simp [hi]))
  · exact h

theorem Once.resumeStep (k : ℕ) : Once (resumeStep s k) := by
  have hid : Once (s.setTask k .idle) := h.setTask (by simp)
  have ht : ∀ i, stopOf (s.tasks k) = some i → ∀ j, some i = some j → j ∈ s.used := by
    rintro i hi j ⟨⟩
    exact h.tasks k i hi
  unfold FinalStops.resumeStep
  split
  · next i durable hk =>
      exact hid.queueFinal (h.tasks k i (by simp [hk])) durable true
  · next r hk =>
      exact hid.queueFinal (h.tasks k r.stopId (by simp [hk])) true false
  · exact hid
  · next i durable hk =>
      exact hid.queueFinal (h.tasks k i (by simp [hk])) durable false
  · next i dropped hk =>
      have hi := ht i (by simp [hk])
      split_ifs
      · exact (h.claim (hi i rfl) false false).setTask hi
      · exact h.setTask hi
  · next i hk =>
      exact hid.head (confirmStop_sets s.head i).1
        fun j hj => h.queued j (confirmStop_queuedId s.head i hj)
  · next i hk => exact hid.head rfl h.queued
  · next i hk =>
      have hs := h.claim (ht i (by simp [hk]) i rfl) true false
      exact hs.setTask (by simp)
  · exact hid
  · exact h

theorem Once.step (hst : Step tuning s l t) : Once t := by
  obtain ⟨he, rfl⟩ := hst
  cases l with
  | tick elapsed => exact { h with }
  | queueStop newId =>
    refine (h.use newId).head rfl fun j hj => ?_
    cases hs : s.head.stops with
    | none =>
      obtain rfl : newId = j := by
        simpa [queueStop, hs, QueuedStop.plain] using hj
      exact List.mem_cons_self
    | some q =>
      refine List.mem_cons_of_mem _ (h.queued j ?_)
      simpa [queueStop, hs] using hj
  | send =>
    refine { h with sent := fun stop hmem => ?_ }
    rcases List.mem_append.mp hmem with hmem | hmem
    · have hs : s.head.stops = some stop := by simpa using hmem
      exact h.queued _ (by simp [hs])
    · exact h.sent stop hmem
  | request k newId ok | bindRequest k newId ok => exact h.requestWith newId ok k fun _ _ => rfl
  | bindList k | list k =>
    refine h.setTask fun i hi => ?_
    obtain ⟨r, hr, rfl⟩ := Option.map_eq_some_iff.mp hi
    exact h.record r hr
  | ack k grace stop speaksFinal => exact h.ackStep tuning k grace he.2.2.2 speaksFinal
  | check k =>
    obtain ⟨record, hk⟩ := he
    simpa only [next, hk] using h.checkStep tuning hk
  | wake k =>
    obtain ⟨i, wakeAt, hk, -⟩ := he
    simp only [next, hk]
    exact h.setTask fun j hj => h.tasks k j (by simpa [hk] using hj)
  | commit k ok => exact h.commitStep k ok
  | resume k => exact h.resumeStep k

end

theorem ackStep_queuedId {grace : ℕ} {speaksFinal : Bool}
    (h : (ackStep tuning s k grace stop speaksFinal).head.queuedId = some i) :
    s.head.queuedId = some i := by
  unfold FinalStops.ackStep at h
  simp only at h
  split_ifs at h
  · exact h
  · exact claim_queuedId s.head stop.stopId false true h
  · exact claim_queuedId s.head stop.stopId false true h
  · exact claim_queuedId s.head stop.stopId false false h
  · exact h

/-- Only a bind queues a stop that is settled. -/
theorem Once.bindQueues (h : Once s) (hst : Step tuning s l t)
    (hse : i ∈ s.head.settledFinals) (hnot : s.head.queuedId ≠ some i)
    (hq : t.head.queuedId = some i) : BindQueues s l := by
  obtain ⟨he, rfl⟩ := hst
  have hr : ∀ newId ok next k, (s.requestWith newId ok next k).head = s.head := by
    intro newId ok next k
    unfold System.requestWith
    split_ifs <;> rfl
  have hu : ∀ j durable, (s.head.queueFinalStopUnless j durable true).2.queuedId ≠ some i := by
    intro j durable hj
    rcases queueUnlessSettled_queuedId s.head j durable hj with hj | ⟨rfl, hj⟩
    · exact hnot hj
    · exact hj hse
  cases l with
  | tick elapsed | send | bindList k | list k => exact absurd hq hnot
  | queueStop newId =>
    cases hs : s.head.stops with
    | none =>
      obtain rfl : newId = i := by
        simpa [next, queueStop, hs, QueuedStop.plain] using hq
      exact absurd (h.settled newId hse) he
    | some q =>
      refine absurd ?_ hnot
      simpa [next, queueStop, hs] using hq
  | request k newId ok => exact absurd (hr newId ok .requested k ▸ hq) hnot
  | bindRequest k newId ok => exact absurd (hr newId ok .bindRequested k ▸ hq) hnot
  | ack k grace stop speaksFinal => exact absurd (ackStep_queuedId hq) hnot
  | check k =>
    obtain ⟨record, hk⟩ := he
    simp only [next, hk] at hq
    cases record with
    | none => exact absurd hq hnot
    | some r =>
      unfold FinalStops.checkStep at hq
      simp only at hq
      split_ifs at hq
      · exact absurd hq hnot
      · exact absurd hq hnot
      · exact absurd hq hnot
      · exact absurd hq (hu r.stopId true)
  | wake k =>
    obtain ⟨j, wakeAt, hk, -⟩ := he
    simp only [next, hk] at hq
    exact absurd hq hnot
  | commit k ok =>
    have hd : ∀ j, (s.dropRecord j ok).head = s.head := by
      intro j
      unfold System.dropRecord
      split_ifs <;> rfl
    simp only [next, FinalStops.commitStep] at hq
    split at hq
    all_goals exact absurd (by simpa [System.setTask, hd] using hq) hnot
  | resume k =>
    simp only [next, FinalStops.resumeStep] at hq
    split at hq
    · next j durable hk => exact absurd hq (hu j durable)
    · next r hk => exact ⟨k, rfl, .inl ⟨_, hk⟩⟩
    · exact absurd hq hnot
    · next j durable hk => exact ⟨k, rfl, .inr ⟨j, durable, hk⟩⟩
    · next j dropped hk =>
        split_ifs at hq
        · exact absurd (claim_queuedId s.head j false false hq) hnot
        · exact absurd hq hnot
    · next j hk => exact absurd (confirmStop_queuedId s.head j hq) hnot
    · exact absurd hq hnot
    · next j hk =>
        exact absurd (claim_queuedId s.head j true false hq) hnot
    · exact absurd hq hnot
    · exact absurd hq hnot

end

end Intentd.FinalStopSettling
