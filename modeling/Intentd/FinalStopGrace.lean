import Intentd.FinalStopSettling
import Intentd.LabelledRuns

/-!
# The record of a final stop during its grace

A load looks at the grace before it asks the store to drop a record, and an
acknowledgement on a link that speaks final stops does not look at it at all. So an
acknowledgement on an older link keeps the record for its grace only if no drop of that
record is under way when it comes, and if no acknowledgement on a link that speaks final
stops comes before the grace is over.
-/
namespace Intentd.FinalStopGrace
open QueuedStops FinalStops FinalStopSettling LabelledRuns

def graceOf : Task → Option ℕ
  | .graceSleeping i _ | .graceDropping i | .graceDropped i => some i
  | _ => none

attribute [local simp] graceOf Task.drops

/-- A grace that has not ended has its task asleep, and then nothing drops the record. -/
structure Kept (s : System) : Prop where
  ends : ∀ i e, s.graceEnds i = some e → (∃ k, s.tasks k = .graceSleeping i e) ∨ e ≤ s.now
  claimed : ∀ k i, graceOf (s.tasks k) = some i → i ∈ s.head.settledFinals
  asleep : ∀ k i e, s.tasks k = .graceSleeping i e →
    i ∈ s.head.inGrace ∧ ¬ DropUnderWay s i ∧ ∀ k', graceOf (s.tasks k') = some i → k' = k

variable {x : Task} {head : Shared} {settles : List ℕ}

section
variable {s t : System} {i e g k : ℕ} {tuning : Tuning} {record : Option FinalStopRecord}
  {l : Label}

section

variable (h : Kept s)
include h

/-- One task goes on, neither asleep before nor after, and drops no record in its grace. -/
theorem Kept.task (k : ℕ) (ho : ∀ k', k' ≠ k → t.tasks k' = s.tasks k')
    (hb : ∀ i e, s.tasks k ≠ .graceSleeping i e) (haf : ∀ i e, t.tasks k ≠ .graceSleeping i e)
    (hg : ∀ i, graceOf (t.tasks k) = some i → graceOf (s.tasks k) = some i)
    (hd : ∀ i, (t.tasks k).drops = some i → i ∉ s.head.inGrace)
    (hs : s.head.settledFinals ⊆ t.head.settledFinals)
    (hin : s.head.inGrace ⊆ t.head.inGrace) (hen : t.graceEnds = s.graceEnds)
    (hnow : t.now = s.now) : Kept t := by
  have ha : ∀ k' i e, t.tasks k' = .graceSleeping i e ↔ s.tasks k' = .graceSleeping i e := by
    intro k' i e
    by_cases hk : k' = k
    · subst hk
      exact iff_of_false (haf i e) (hb i e)
    · rw [ho k' hk]
  have hof : ∀ k' i, graceOf (t.tasks k') = some i → graceOf (s.tasks k') = some i := by
    intro k' i hi
    by_cases hk : k' = k
    · subst hk
      exact hg i hi
    · exact ho k' hk ▸ hi
  constructor
  · intro i e he
    rw [hen] at he
    rw [hnow]
    exact (h.ends i e he).imp_left fun ⟨k', hk'⟩ => ⟨k', (ha k' i e).mpr hk'⟩
  · exact fun k' i hi => hs (h.claimed k' i (hof k' i hi))
  · intro k' i e hk'
    obtain ⟨hmem, hn, hu⟩ := h.asleep k' i e ((ha k' i e).mp hk')
    refine ⟨hin hmem, ?_, fun k'' hk'' => hu k'' (hof k'' i hk'')⟩
    rintro ⟨k'', hk''⟩
    by_cases hk : k'' = k
    · subst hk
      exact hd i hk'' hmem
    · exact hn ⟨k'', ho k'' hk ▸ hk''⟩

theorem Kept.congr (ht : t.tasks = s.tasks) (hen : t.graceEnds = s.graceEnds)
    (hs : t.head.settledFinals = s.head.settledFinals)
    (hin : t.head.inGrace = s.head.inGrace) (hnow : s.now ≤ t.now) : Kept t := by
  constructor
  · intro i e he
    rw [hen] at he
    rw [ht]
    exact (h.ends i e he).imp_right fun hle => hle.trans hnow
  · intro k i hi
    rw [hs]
    exact h.claimed k i (ht ▸ hi)
  · intro k i e hk
    rw [hin]
    unfold DropUnderWay
    rw [ht] at hk ⊢
    exact h.asleep k i e hk

/-- A task that is not part of a grace goes on, and drops no record in its grace. -/
theorem Kept.setTask (hb : ∀ i e, s.tasks k ≠ .graceSleeping i e)
    (hg : ∀ i, graceOf x = some i → graceOf (s.tasks k) = some i)
    (ha : ∀ i e, x ≠ .graceSleeping i e) (hd : ∀ i, x.drops = some i → i ∉ s.head.inGrace)
    (hs : s.head.settledFinals ⊆ head.settledFinals := by exact subset_rfl)
    (hin : s.head.inGrace ⊆ head.inGrace := by exact subset_rfl) {used : List ℕ} :
    Kept { s.setTask k x with
      head := head, record := record, used := used, settles := settles } := by
  have hk : (s.setTask k x).tasks k = x := by simp
  refine h.task k (fun k' hk' => ?_) hb (fun i e hi => ha i e (hk ▸ hi))
    (fun i hi => hg i (hk ▸ hi)) (fun i hi => hd i (hk ▸ hi)) hs hin rfl rfl
  exact (setTask_tasks s k x k').trans (if_neg hk')

theorem Kept.setPlain (hb : ∀ i e, s.tasks k ≠ .graceSleeping i e)
    (hg : graceOf x = none) (hd : x.drops = none)
    (hs : s.head.settledFinals ⊆ head.settledFinals := by exact subset_rfl)
    (hin : s.head.inGrace ⊆ head.inGrace := by exact subset_rfl) {used : List ℕ} :
    Kept { s.setTask k x with
      head := head, record := record, used := used, settles := settles } := by
  refine h.setTask hb (by simp [-graceOf, hg]) ?_ (by simp [-Task.drops, hd]) hs hin
  intro i e hx
  simp [hx] at hg

/-- An ack on an older link puts the stop in its grace. No drop of its record is under way. -/
theorem Kept.enterGrace (hnew : i ∉ s.head.settledFinals) (hno : ¬ DropUnderWay s i)
    (hid : s.tasks g = .idle) (hg : t.tasks g = .graceSleeping i e)
    (ho : ∀ k, k ≠ g → t.tasks k = s.tasks k ∨ s.tasks k = .idle ∧ t.tasks k = .ackSettled i)
    (hse : t.head.settledFinals = insert i s.head.settledFinals)
    (hin : t.head.inGrace = insert i s.head.inGrace)
    (he : t.graceEnds = Function.update s.graceEnds i (some e)) (hnow : t.now = s.now) :
    Kept t := by
  have hn : ∀ k, graceOf (s.tasks k) ≠ some i := fun k hk => hnew (h.claimed k i hk)
  -- Every task but the new one is as before, as far as graces and drops go.
  have hof : ∀ k j, k ≠ g → graceOf (t.tasks k) = some j → graceOf (s.tasks k) = some j := by
    intro k j hk hj
    rcases ho k hk with heq | ⟨-, heq⟩
    · exact heq ▸ hj
    · simp [heq] at hj
  have hdr : ∀ j, DropUnderWay t j → DropUnderWay s j := by
    rintro j ⟨k, hk⟩
    by_cases hkg : k = g
    · subst hkg
      simp [hg] at hk
    · rcases ho k hkg with heq | ⟨-, heq⟩
      · exact ⟨k, heq ▸ hk⟩
      · simp [heq] at hk
  have hsl : ∀ k j e', s.tasks k = .graceSleeping j e' → t.tasks k = .graceSleeping j e' := by
    intro k j e' hk
    have hkg : k ≠ g := by
      rintro rfl
      simp [hid] at hk
    rcases ho k hkg with heq | ⟨heq, -⟩
    · rw [heq, hk]
    · simp [heq] at hk
  constructor
  · intro j e' he'
    rw [he] at he'
    by_cases hj : j = i
    · subst hj
      obtain rfl : e = e' := by simpa using he'
      exact .inl ⟨g, hg⟩
    · rw [Function.update_of_ne hj] at he'
      rw [hnow]
      exact (h.ends j e' he').imp_left fun ⟨k, hk⟩ => ⟨k, hsl k j e' hk⟩
  · intro k j hj
    rw [hse]
    by_cases hk : k = g
    · subst hk
      obtain rfl : i = j := by simpa [hg] using hj
      exact Finset.mem_insert_self _ _
    · exact Finset.mem_insert_of_mem (h.claimed k j (hof k j hk hj))
  · intro k j e' hk
    rw [hin]
    by_cases hkg : k = g
    · subst hkg
      obtain ⟨rfl, rfl⟩ : i = j ∧ e = e' := by simpa [hg] using hk
      refine ⟨Finset.mem_insert_self _ _, fun hd => hno (hdr i hd), fun k' hk' => ?_⟩
      by_contra hne
      exact hn k' (hof k' i hne hk')
    · have hs : s.tasks k = .graceSleeping j e' := by
        rcases ho k hkg with heq | ⟨-, heq⟩
        · exact heq ▸ hk
        · simp [heq] at hk
      obtain ⟨hmem, hn', hu⟩ := h.asleep k j e' hs
      have hji : j ≠ i := by
        rintro rfl
        exact hn k (by simp [hs])
      refine ⟨Finset.mem_insert_of_mem hmem, fun hd => hn' (hdr j hd), fun k' hk' => ?_⟩
      by_cases hk'g : k' = g
      · subst hk'g
        exact absurd (by simpa [hg] using hk'.symm) hji
      · exact hu k' (hof k' j hk'g hk')

theorem Kept.wake (hk : s.tasks k = .graceSleeping i e) (he : e ≤ s.now) :
    Kept (s.setTask k (.graceDropping i)) := by
  have hof : ∀ k' j, graceOf ((s.setTask k (.graceDropping i)).tasks k') = some j →
      graceOf (s.tasks k') = some j := by
    intro k' j hj
    rw [setTask_tasks] at hj
    split_ifs at hj with hkk
    · subst hkk
      simpa [hk] using hj
    · exact hj
  constructor
  · intro j e' he'
    rcases h.ends j e' he' with ⟨k', hk'⟩ | hle
    · by_cases hkk : k' = k
      · subst hkk
        obtain ⟨rfl, rfl⟩ : i = j ∧ e = e' := by simpa [hk] using hk'
        exact .inr he
      · exact .inl ⟨k', by rw [setTask_tasks, if_neg hkk, hk']⟩
    · exact .inr hle
  · exact fun k' j hj => h.claimed k' j (hof k' j hj)
  · intro k' j e' hk'
    rw [setTask_tasks] at hk'
    split_ifs at hk' with hkk
    obtain ⟨hmem, hn, hu⟩ := h.asleep k' j e' hk'
    refine ⟨hmem, ?_, fun k'' hk'' => hu k'' (hof k'' j hk'')⟩
    rintro ⟨k'', hk''⟩
    rw [setTask_tasks] at hk''
    split_ifs at hk'' with hkk''
    · simp at hk''
    · exact hn ⟨k'', hk''⟩

theorem Kept.leaveGrace (hk : s.tasks k = .graceDropped i) :
    Kept { s.setTask k .idle with head := { s.head with inGrace := s.head.inGrace.erase i } } := by
  have hid : Kept (s.setTask k .idle) := h.setPlain (by simp [hk]) rfl rfl
  refine { hid with asleep := fun k' j e hk' => ?_ }
  obtain ⟨hmem, hn, hu⟩ := hid.asleep k' j e hk'
  refine ⟨Finset.mem_erase.mpr ⟨?_, hmem⟩, hn, hu⟩
  -- The task that leaves the grace of `i` would be the one asleep.
  rintro rfl
  have hs : s.tasks k' = .graceSleeping j e := by
    rw [setTask_tasks] at hk'
    split_ifs at hk' with hkk
    exact hk'
  obtain rfl := (h.asleep k' j e hs).2.2 k (by simp [hk])
  simp [hk] at hs

theorem Kept.ackStep {stop : QueuedStop} {speaksFinal : Bool} (hk : s.tasks k = .idle)
    (hg : s.tasks g = .idle) (hu : Undisturbed s (.ack k g stop speaksFinal)) :
    Kept (ackStep tuning s k g stop speaksFinal) := by
  have hb : ∀ i e, s.tasks k ≠ .graceSleeping i e := by simp [hk]
  have hc : ∀ grace, s.head.settledFinals ⊆
      (s.head.claimFinalSettleWith stop.stopId false grace).2.settledFinals := by
    intro grace
    rw [claim_settledFinals]
    exact Finset.subset_insert _ _
  unfold FinalStops.ackStep
  split_ifs with hd hf hf
  · have hgr := hu hd
    rw [if_pos hf] at hgr
    refine h.setTask hb (by simp) (by simp) ?_
    intro i hi
    obtain rfl : stop.stopId = i := by simpa using hi
    exact hgr
  · have hn := hu hd
    rw [if_neg hf] at hn
    simp only
    split_ifs with hcl
    · have hnew := (claim_iff s.head stop.stopId false true).mp hcl
      have hta : ∀ claim : Bool × Shared, ∀ x k',
          (((s.settle claim stop.stopId).setTask k (.ackSettled stop.stopId)).setTask g x).tasks
            k' = if k' = g then x else if k' = k then .ackSettled stop.stopId else s.tasks k' := by
        intro claim x k'
        rw [setTask_tasks, setTask_tasks]
        rfl
      refine h.enterGrace (i := stop.stopId) hnew (hn hnew) hg
        ((hta _ _ g).trans (if_pos rfl)) (fun k' hk' => ?_)
        (claim_settledFinals s.head _ false true) ?_ rfl rfl
      · have ht := (hta (s.head.claimFinalSettleWith stop.stopId false true)
          (.graceSleeping stop.stopId (s.now + tuning.legacyPushGrace)) k').trans (if_neg hk')
        by_cases hkk : k' = k
        · rw [if_pos hkk] at ht
          exact .inr ⟨hkk ▸ hk, ht⟩
        · rw [if_neg hkk] at ht
          exact .inl ht
      · change (s.head.claimFinalSettleWith stop.stopId false true).2.inGrace = _
        simp [Shared.claimFinalSettleWith, hnew]
    · exact h.setPlain hb rfl rfl (hc true) (inGrace_subset_claim s.head _ false true)
  · exact h.setPlain hb rfl rfl (hc false) (inGrace_subset_claim s.head _ false false)
  · exact h.setPlain hb rfl rfl

theorem Kept.requestWith (newId : ℕ) (ok : Bool) {next : ℕ → Bool → Task} (hk : s.tasks k = .idle)
    (hg : ∀ i durable, graceOf (next i durable) = none)
    (hd : ∀ i durable, (next i durable).drops = none) : Kept (s.requestWith newId ok next k) := by
  unfold System.requestWith
  split_ifs <;> exact h.setPlain (by simp [hk]) (hg _ _) (hd _ _)

theorem Kept.checkStep (tuning : Tuning) (hk : s.tasks k = .loadListed record) :
    Kept (checkStep tuning s k record) := by
  cases record with
  | none => exact h.setPlain (by simp [hk]) rfl rfl
  | some r =>
    unfold FinalStops.checkStep
    simp only
    split_ifs with hin
    · exact h.setPlain (by simp [hk]) rfl rfl
    · exact h.setTask (by simp [hk]) (by simp) (by simp) (by simpa using hin)
    · exact h.setTask (by simp [hk]) (by simp) (by simp) (by simpa using hin)
    · exact h.setPlain (by simp [hk]) rfl rfl
        (queueFinalStopUnless_settledFinals s.head _ _ _).superset
        (queueFinalStopUnless_inGrace s.head _ _ _).superset

end

theorem dropRecord_eq (s : System) (i : ℕ) (ok : Bool) :
    s.dropRecord i ok = { s with record := (s.dropRecord i ok).record } := by
  unfold System.dropRecord
  split_ifs <;> rfl

theorem Kept.commitStep (h : Kept s) (k : ℕ) (ok : Bool) : Kept (commitStep s k ok) := by
  unfold FinalStops.commitStep
  split
  · next i hk =>
      rw [dropRecord_eq]
      exact h.setPlain (by simp [hk]) rfl rfl
  · next i pastBound hk =>
      rw [dropRecord_eq]
      exact h.setPlain (by simp [hk]) rfl rfl
  · next i hk =>
      rw [dropRecord_eq]
      exact h.setTask (by simp [hk]) (by simp [hk]) (by simp) (by simp)
  · exact h

theorem Kept.resumeStep (h : Kept s) (k : ℕ) : Kept (resumeStep s k) := by
  have hc : ∀ i dequeue, s.head.settledFinals ⊆
      (s.head.claimFinalSettleWith i dequeue false).2.settledFinals := by
    intro i dequeue
    rw [claim_settledFinals]
    exact Finset.subset_insert _ _
  have hq : ∀ i durable unlessSettled, s.head.settledFinals ⊆
      (s.head.queueFinalStopUnless i durable unlessSettled).2.settledFinals ∧
      s.head.inGrace ⊆ (s.head.queueFinalStopUnless i durable unlessSettled).2.inGrace :=
    fun i durable unlessSettled => ⟨(queueFinalStopUnless_settledFinals s.head _ _ _).superset,
      (queueFinalStopUnless_inGrace s.head _ _ _).superset⟩
  unfold FinalStops.resumeStep
  split
  · next i durable hk =>
      exact h.setPlain (by simp [hk]) rfl rfl (hq i durable true).1 (hq i durable true).2
  · next r hk =>
      exact h.setPlain (by simp [hk]) rfl rfl (hq r.stopId true false).1 (hq r.stopId true false).2
  · next hk =>
      exact h.setPlain (by simp [hk]) rfl rfl
  · next i durable hk =>
      exact h.setPlain (by simp [hk]) rfl rfl (hq i durable false).1 (hq i durable false).2
  · next i dropped hk =>
      split_ifs
      · exact h.setPlain (by simp [hk]) rfl rfl (hc i false)
          (inGrace_subset_claim s.head i false false)
      · exact h.setPlain (by simp [hk]) rfl rfl
  · next i hk =>
      exact h.setPlain (by simp [hk]) rfl rfl (confirmStop_sets s.head i).1.superset
        (confirmStop_sets s.head i).2.superset
  · next i hk => exact h.leaveGrace hk
  · next i hk =>
      exact h.setPlain (by simp [hk]) rfl rfl (hc i true) (inGrace_subset_claim s.head i true false)
  · next i hk =>
      exact h.setPlain (by simp [hk]) rfl rfl
  · exact h

theorem Kept.step (h : Kept s) (hs : Step tuning s l t) (hu : Undisturbed s l) : Kept t := by
  obtain ⟨hen, rfl⟩ := hs
  cases l with
  | tick elapsed => exact h.congr rfl rfl rfl rfl (Nat.le_add_right _ _)
  | queueStop newId | send => exact h.congr rfl rfl rfl rfl le_rfl
  | request k newId ok | bindRequest k newId ok =>
    exact h.requestWith newId ok hen.1 (fun _ _ => rfl) fun _ _ => rfl
  | bindList k | list k =>
    have hk : s.tasks k = .idle := hen
    exact h.setPlain (by simp [hk]) rfl rfl
  | ack k g stop speaksFinal => exact h.ackStep hen.1 hen.2.1 hu
  | check k =>
    obtain ⟨record, hk⟩ := hen
    simpa only [next, hk] using h.checkStep tuning hk
  | wake k =>
    obtain ⟨i, e, hk, he⟩ := hen
    simpa only [next, hk] using h.wake hk he
  | commit k ok => exact h.commitStep k ok
  | resume k => exact h.resumeStep k

theorem ackStep_record (tuning : Tuning) (s : System) (k g : ℕ) (stop : QueuedStop)
    (speaksFinal : Bool) : (ackStep tuning s k g stop speaksFinal).record = s.record := by
  unfold FinalStops.ackStep
  simp only
  split_ifs <;> rfl

theorem checkStep_record (tuning : Tuning) (s : System) (k : ℕ) (record : Option FinalStopRecord) :
    (checkStep tuning s k record).record = s.record := by
  unfold FinalStops.checkStep
  split
  · rfl
  · split_ifs <;> rfl

theorem resumeStep_record (s : System) (k : ℕ) : (resumeStep s k).record = s.record := by
  unfold FinalStops.resumeStep
  split <;> first | rfl | (split_ifs <;> rfl)

theorem dropRecord_none {j : ℕ} {ok : Bool} (hi : s.hasRecord i)
    (h : (s.dropRecord j ok).record = none) : j = i := by
  obtain ⟨r, hr, hri⟩ : ∃ r, s.record = some r ∧ r.stopId = i := by
    simpa [System.hasRecord, Option.any_eq_true] using hi
  unfold System.dropRecord at h
  split_ifs at h with hj
  · have hrj : r.stopId = j := by simpa [System.hasRecord, hr] using hj.2
    exact hrj.symm.trans hri
  · simp [hr] at h

theorem dropping_of_drops (hs : Step tuning s l t) (h : Drops s t i) :
    ∃ k, (s.tasks k).drops = some i ∨ s.tasks k = .graceDropping i := by
  obtain ⟨he, rfl⟩ := hs
  obtain ⟨hi, hn⟩ := h
  have hke : s.record ≠ none := by
    intro hr
    simp [System.hasRecord, hr] at hi
  have hre : ∀ newId ok next k, (s.requestWith newId ok next k).record ≠ none := by
    intro newId ok next k
    unfold System.requestWith
    split_ifs
    · simp
    · exact hke
  cases l with
  | tick elapsed | queueStop newId | send | bindList k | list k => exact absurd hn hke
  | request k newId ok | bindRequest k newId ok => exact absurd hn (hre newId ok _ k)
  | ack k g stop speaksFinal => exact absurd ((ackStep_record ..).symm.trans hn) hke
  | check k =>
    obtain ⟨record, hk⟩ := he
    simp only [next, hk] at hn
    exact absurd ((checkStep_record ..).symm.trans hn) hke
  | wake k =>
    obtain ⟨j, e, hk, -⟩ := he
    simp only [next, hk] at hn
    exact absurd hn hke
  | commit k ok =>
    simp only [next, FinalStops.commitStep] at hn
    refine ⟨k, ?_⟩
    split at hn
    · next j hk =>
        obtain rfl := dropRecord_none hi hn
        exact .inl (by simp [hk])
    · next j pastBound hk =>
        obtain rfl := dropRecord_none hi hn
        exact .inl (by simp [hk])
    · next j hk =>
        obtain rfl := dropRecord_none hi hn
        exact .inr hk
    · exact absurd hn hke
  | resume k => exact absurd ((resumeStep_record s k).symm.trans hn) hke

theorem Kept.graceOver (h : Kept s) (hs : Step tuning s l t) (hd : Drops s t i)
    (he : s.graceEnds i = some e) : e ≤ s.now := by
  rcases h.ends i e he with ⟨k, hk⟩ | hle
  · obtain ⟨-, hn, hu⟩ := h.asleep k i e hk
    obtain ⟨k', hk' | hk'⟩ := dropping_of_drops hs hd
    · exact absurd ⟨k', hk'⟩ hn
    · obtain rfl := hu k' (by simp [hk'])
      simp [hk] at hk'
  · exact hle

end

/-- In every run each final stop settles at most once, and only a bind that finds the
agent running queues a settled stop. In every undisturbed run the record of a stop
acknowledged on an older link is not dropped before its grace is over. -/
theorem final_stop_settles_once {tuning : Tuning} {record : Option FinalStopRecord}
    {labels : List Label} {s t : System} {l : Label}
    (hrun : Run (Step tuning) (.initial record) labels s) (hstep : Step tuning s l t) :
    t.settles.Nodup ∧ (∀ i ∈ s.head.settledFinals, s.head.queuedId ≠ some i →
      t.head.queuedId = some i → BindQueues s l) ∧
      (Run (fun s l t => Step tuning s l t ∧ Undisturbed s l) (.initial record) labels s →
        ∀ i e, Drops s t i → s.graceEnds i = some e → e ≤ s.now) := by
  have ho : Once s := hrun.invariant (once_initial record) fun _ _ _ h hs => h.step hs
  refine ⟨(ho.step hstep).nodup, fun i hi hnot hq => ?_, fun hu i e hd he => ?_⟩
  · exact ho.bindQueues hstep hi hnot hq
  · have hk : Kept s :=
      hu.invariant (by constructor <;> simp [System.initial]) fun _ _ _ h hs => h.step hs.1 hs.2
    exact hk.graceOver hstep hd he

/-- A stop acknowledged on an older link: its record goes once the grace is over. -/
theorem final_stop_settles_once_older_link :
    ∃ s t, Step ⟨604800, 120⟩ s (.commit 2 true) t ∧ Drops s t 5 ∧ s.graceEnds 5 = some 120 ∧
      120 ≤ s.now ∧ t.settles = [5] ∧ t.settles.Nodup := by
  have hrun : Run (fun s l t => Step ⟨604800, 120⟩ s l t ∧ Undisturbed s l)
      (.initial (some ⟨5, some 0⟩)) _ _ :=
    .cons ⟨.of_enabled _ _ (.list 0) rfl, trivial⟩ <|
    .cons ⟨.of_enabled _ _ (.check 0) ⟨_, rfl⟩, trivial⟩ <|
    .cons ⟨.of_enabled _ _ .send rfl, trivial⟩ <|
    .cons ⟨.of_enabled _ _ (.ack 1 2 ⟨5, true, true⟩ false) ⟨rfl, rfl, by decide, by decide⟩, by
      rintro - - ⟨_ | k, hk⟩ <;> cases hk⟩ <|
    .cons ⟨.of_enabled _ _ (.tick 120) trivial, trivial⟩ <|
    .cons ⟨.of_enabled _ _ (.wake 2) ⟨5, 120, rfl, by decide⟩, trivial⟩ .nil
  have h :=
    final_stop_settles_once (hrun.mono fun _ _ _ h => h.1) (.of_enabled _ _ (.commit 2 true) rfl)
  refine ⟨_, _, ?_, ?_, ?_, h.2.2 hrun 5 120 ⟨rfl, rfl⟩ rfl, ?_, h.1⟩
  · exact .of_enabled _ _ (.commit 2 true) rfl
  · exact ⟨rfl, rfl⟩
  · rfl
  · rfl

/-- A load finds a record past its bound and asks the store to drop it. Before the store
does, the stop is acknowledged on an older link, and its record is dropped with the
whole grace still to run. -/
theorem load_drops_record_in_grace :
    ∃ labels s t, Run (Step ⟨604800, 120⟩) (.initial (some ⟨5, some 0⟩)) labels s ∧
      Step ⟨604800, 120⟩ s (.commit 0 true) t ∧ Drops s t 5 ∧
      s.graceEnds 5 = some (s.now + 120) := by
  have hrun : Run (Step ⟨604800, 120⟩) (.initial (some ⟨5, some 0⟩)) _ _ :=
    .cons (.of_enabled _ _ (.list 0) rfl) <| .cons (.of_enabled _ _ (.check 0) ⟨_, rfl⟩) <|
    .cons (.of_enabled _ _ .send rfl) <| .cons (.of_enabled _ _ (.tick 604800) trivial) <|
    .cons (.of_enabled _ _ (.list 0) rfl) <| .cons (.of_enabled _ _ (.check 0) ⟨_, rfl⟩) <|
    .cons (.of_enabled _ _ (.ack 1 2 ⟨5, true, true⟩ false) ⟨rfl, rfl, by decide, by decide⟩) .nil
  exact ⟨_, _, _, hrun, .of_enabled _ _ (.commit 0 true) rfl, ⟨rfl, rfl⟩, rfl⟩

end Intentd.FinalStopGrace
