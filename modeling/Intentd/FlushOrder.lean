import Intentd.FlushTurns
import Intentd.HeldEntries

/-!
# A batch comes back in order

The entries of a batch that are back in the queue are there in the order of the batch, each
under its own id or as part of another entry without a row. Handing back a piece of the
batch adds the ids of the piece in front, a submission adds an id that is not of the batch,
and a merge takes an id away; so three pieces that are handed back from the last to the
first make up the batch again. The transcript grows only by rows of entries that had none.
-/
namespace Intentd.FlushTurns
open QueuedMessages KeyedLists QueueDrains List Option

structure Back (batch back live : List QueuedMessage) (frozen : Bool) : Prop where
  order : ((live.map QueuedMessage.id).filter (· ∈ batch.map QueuedMessage.id)).Sublist
    (back.map QueuedMessage.id)
  covered : ∀ b ∈ back, (∃ e ∈ live, Covers e b) ∨ frozen = true
  merged : ∀ b ∈ batch, ∀ e ∈ live, ∀ id, b.matchesSubmission id = true →
      e.matchesSubmission id = true →
      e.id = b.id ∨ e.persisted = false ∧ (liftFromPrincipalId e.messageMetadata).isSome = true

variable {batch given givenBatch : List QueuedMessage} {s : System} {barred : List ℕ}

namespace Back

variable {back live live' : List QueuedMessage} {frozen : Bool}

theorem popped (hd : (live ++ batch).Pairwise Distinct) : Back batch [] live frozen := by
  have ha := (pairwise_append.mp hd).2.2
  refine ⟨?_, by simp, ?_⟩
  · rw [filter_eq_nil_iff.mpr]
    · exact List.Sublist.refl _
    · intro id hid hmem
      obtain ⟨e, he, rfl⟩ := mem_map.mp hid
      obtain ⟨b, hb, heq⟩ := mem_map.mp (of_decide_eq_true hmem)
      exact (ha e he b hb).id_ne heq.symm
  · intro b hb e he id hbid heid
    have := ha e he b hb id heid
    rw [hbid] at this
    cases this

theorem accept (h : Back batch back live frozen) {r : Request} {order : ℕ}
    {draining : List QueuedMessage} (hf : ∀ b ∈ batch, b.matchesSubmission r.id = false)
    (hk : ∀ m ∈ live, Known m) (ha : MessageQueue.Accepts live draining (r.entry order) live') :
    Back batch back live' frozen := by
  have hnew : ∀ b ∈ batch, ∀ id, b.matchesSubmission id = true → id ≠ r.id := by
    rintro b hb id hid rfl
    rw [hf b hb] at hid
    cases hid
  cases ha with
  | @insert older newer hs =>
    subst hs
    have hid : r.id ∉ batch.map QueuedMessage.id := by
      intro hmem
      obtain ⟨b, hb, heq⟩ := mem_map.mp hmem
      exact hnew b hb b.id (matches_self b) heq
    refine ⟨?_, fun b hb => (h.covered b hb).imp_left ?_, ?_⟩
    · have hsk : (r.entry order).id ∉ batch.map QueuedMessage.id := hid
      rw [map_append, map_cons, filter_append,
        filter_cons_of_neg (by simpa using hsk), ← filter_append, ← map_append]
      exact h.order
    · rintro ⟨e, he, hc⟩
      exact ⟨e, perm_middle.mem_iff.mpr (mem_cons_of_mem _ he), hc⟩
    · intro b hb e he id hbid heid
      rcases mem_cons.mp (perm_middle.mem_iff.mp he) with rfl | he
      · exact absurd ((entry_matches r order id).mp heid) (hnew b hb id hbid)
      · exact h.merged b hb e he id hbid heid
  | @merge target older newer hs hm _ _ =>
    subst hs
    have hmem : target ∈ older ++ target :: newer := by simp
    have hma := appendPending_matches (hk target hmem) (.entry r order) hm
    refine ⟨?_, fun b hb => (h.covered b hb).imp_left ?_, ?_⟩
    · have hids : (older ++ target.appendPending (r.entry order) :: newer).map QueuedMessage.id =
          (older ++ target :: newer).map QueuedMessage.id := by
        simp [QueuedMessage.appendPending]
      rw [hids]
      exact h.order
    · rintro ⟨e, he, hc⟩
      rcases mem_cons.mp (perm_middle.mem_iff.mp he) with rfl | he
      · exact ⟨_, by simp, (covers_appendPending_left (hk e hmem) (.entry r order) hm).trans hc⟩
      · exact ⟨e, perm_middle.mem_iff.mpr (mem_cons_of_mem _ he), hc⟩
    · intro b hb e he id hbid heid
      rcases mem_cons.mp (perm_middle.mem_iff.mp he) with rfl | he
      · have hold := ((hma id).mp heid).resolve_right fun hid =>
          hnew b hb id hbid ((entry_matches r order id).mp hid)
        refine (h.merged b hb target hmem id hbid hold).imp (fun hid => hid) fun hf => ?_
        refine ⟨hf.1, ?_⟩
        change (liftFromPrincipalId (mergeQueueMetadata _ _)).isSome = true
        rw [liftFromPrincipalId_mergeQueueMetadata]
        exact hf.2
      · exact h.merged b hb e (perm_middle.mem_iff.mpr (mem_cons_of_mem _ he)) id hbid heid

/-- A merge takes an id away; the entry it leaves has no row. -/
theorem mergeStep (h : Back batch back live frozen) (hids : (live.map QueuedMessage.id).Nodup)
    (hc : ∀ m ∈ live, ∃ m' ∈ live', Covers m' m) (hs : MergeStep barred live live') :
    Back batch back live' frozen := by
  refine ⟨?_, fun b hb => (h.covered b hb).imp_left ?_, ?_⟩
  · obtain ⟨e, -, f, -, -, -, -, -, -, rfl⟩ := hs
    have hsub :
        ((absorb QueuedMessage.id live e f (·.appendPending f)).map QueuedMessage.id).Sublist
        (live.map QueuedMessage.id) := absorb_keys_sublist fun _ => rfl
    exact (hsub.filter _).trans h.order
  · rintro ⟨e, he, hco⟩
    obtain ⟨e', he', hc'⟩ := hc e he
    exact ⟨e', he', hc'.trans hco⟩
  · obtain ⟨e, f, others, hme, hp, hp'⟩ := hs.perm hids
    intro b hb m hm id hbid hmid
    rcases mem_cons.mp (hp'.mem_iff.mp hm) with rfl | hm
    · obtain ⟨-, -, hpe, -, -⟩ := QueuedMessage.canMergePending_iff hme
      refine .inr ⟨hpe, ?_⟩
      change (liftFromPrincipalId (mergeQueueMetadata _ _)).isSome = true
      rw [liftFromPrincipalId_mergeQueueMetadata]
      exact QueuedMessage.author_of_canMergePending hme
    · exact h.merged b hb m (hp.mem_iff.mpr (by simp [hm])) id hbid hmid

theorem merges {queue : List QueuedMessage} (hinv : Inv s) (h : Back batch back s.live frozen)
    (hst : Relation.ReflTransGen (MergeStep barred) s.live queue) :
    Back batch back queue frozen := by
  induction hst with
  | refl => exact h
  | tail hb hs ih =>
    have hmid := (hinv.merges hb).1
    exact ih.mergeStep hmid.live_nodup (hmid.mergeStep hs).2 hs

theorem front (h : Back batch back live frozen) (hap : batch.Pairwise Distinct)
    (ha : List.Forall₂ Alike given givenBatch)
    (hsub : givenBatch ⊆ batch) : Back batch (givenBatch ++ back) (given ++ live) frozen := by
  have hids : given.map QueuedMessage.id = givenBatch.map QueuedMessage.id := by
    rw [← forall₂_eq_eq_eq, forall₂_map_left_iff, forall₂_map_right_iff]
    exact ha.imp fun _ _ h => h.id
  have hmem : ∀ m ∈ given, ∃ b ∈ givenBatch, Alike m b := by
    intro m hm
    obtain ⟨i, hi, rfl⟩ := getElem_of_mem hm
    have hi' : i < givenBatch.length := ha.length_eq ▸ hi
    exact ⟨givenBatch[i], getElem_mem hi', ha.get hi hi'⟩
  have hm' : ∀ b ∈ givenBatch, ∃ m ∈ given, Alike m b := by
    intro b hb
    obtain ⟨i, hi', rfl⟩ := getElem_of_mem hb
    have hi : i < given.length := ha.length_eq ▸ hi'
    exact ⟨given[i], getElem_mem hi, ha.get hi hi'⟩
  refine ⟨?_, ?_, ?_⟩
  · have hall : (given.map QueuedMessage.id).filter (· ∈ batch.map QueuedMessage.id) =
        givenBatch.map QueuedMessage.id := by
      rw [hids]
      refine filter_eq_self.mpr fun id hid => ?_
      obtain ⟨b, hb, rfl⟩ := mem_map.mp hid
      exact decide_eq_true (mem_map_of_mem (hsub hb))
    rw [map_append, filter_append, hall, map_append]
    exact h.order.append_left _
  · intro b hb
    rcases mem_append.mp hb with hb | hb
    · obtain ⟨m, hm, hmb⟩ := hm' b hb
      exact .inl ⟨m, mem_append_left _ hm, hmb.symm.covers⟩
    · refine (h.covered b hb).imp_left ?_
      rintro ⟨e, he, hc⟩
      exact ⟨e, mem_append_right _ he, hc⟩
  · intro b hb e he id hbid heid
    rcases mem_append.mp he with he | he
    · obtain ⟨b', hb', heb'⟩ := hmem e he
      have : Std.Symm Distinct := ⟨fun _ _ hd => hd.symm⟩
      refine .inl (heb'.id.trans ?_)
      by_contra hne
      have hdi := hap.forall (hsub hb') hb (fun heq => hne (congrArg QueuedMessage.id heq))
      have hf := hdi id ((heb'.matches id).symm.trans heid)
      rw [hbid] at hf
      cases hf
    · exact h.merged b hb e he id hbid heid

end Back

/-- An attempt that has popped a batch, of which `back` is back in the queue. -/
structure Attempt (s : System) (batch : List QueuedMessage) (drain : Drain)
    (back : List QueuedMessage) : Prop where
  drains : s.drains = [drain]
  guarded : drain.guarded = true
  owned : ∀ d ∈ s.draining, d.id ∈ drain.ids
  copies : ∀ b ∈ batch, ∃ d ∈ s.draining, Alike d b
  apart : batch.Pairwise Distinct
  back : Back batch back s.live s.frozen

variable {drain : Drain} {t : System}

namespace Attempt

variable {back : List QueuedMessage}
variable (h : Attempt s batch drain back)
include h

theorem get : s.drains[0]? = some drain := by
  rw [h.drains]
  rfl

theorem enqueue (hinv : Inv s) (r : Request) : Attempt (s.enqueue r) batch drain back := by
  rcases s.enqueue_cases r with heq | ⟨hf, live, ha, heq⟩
  · rw [heq]
    exact h
  · rw [heq]
    refine { h with back := h.back.accept ?_ ?_ ha }
    · intro b hb
      obtain ⟨d, hd, hal⟩ := h.copies b hb
      exact (hal.matches _).symm.trans (hf d (mem_append_right _ hd))
    · exact fun m hm => hinv.entries.known m (mem_append_left _ hm)

theorem freeze : Attempt { s with frozen := true } batch drain back :=
  { h with back := { h.back with covered := fun _ _ => .inr rfl } }

theorem updateInHand (id : String) (g : QueuedMessage → QueuedMessage) :
    Attempt (s.updateInHand 0 drain id g) batch
      { drain with inHand := drain.inHand.map fun m => if m.id = id then g m else m } back := by
  refine { h with drains := ?_ }
  simp only [System.updateInHand, h.drains, set_cons_zero]

theorem commit (id : String) (transcript : List Row) :
    Attempt { s with transcript := transcript, draining := s.commitQueueHistory id }
      batch drain back := by
  refine { h with owned := forall_mem_map.mpr fun d hd => ?_, copies := fun b hb => ?_ }
  · have hid := h.owned d hd
    split <;> exact hid
  · obtain ⟨d, hd, ha⟩ := h.copies b hb
    refine ⟨_, mem_map_of_mem hd, ?_⟩
    split
    · exact { ha with }
    · exact ha

theorem handBack (hinv : Inv s) {chosen : String → Bool} (hs : s.handBackBatch 0 chosen = some t)
    {kept : List QueuedMessage} (hg : (drain.inHand.filter fun m => chosen m.id) = given)
    (hk : (drain.inHand.filter fun m => !chosen m.id) = kept)
    (ha : List.Forall₂ Alike given givenBatch) (hsub : givenBatch ⊆ batch) :
      Attempt t batch { drain with inHand := kept } (givenBatch ++ back) ∧
      Relation.ReflTransGen (MergeStep []) (given ++ s.live) t.live := by
  subst hg hk
  obtain ⟨queue, _, hrun, rfl, -, hm⟩ := hinv.handBackBatch_run h.get chosen
  cases hrun.symm.trans hs
  obtain ⟨barred, hst⟩ := hm.steps
  have hga := hinv.giveBackAt h.get (filter_append_perm (fun m => chosen m.id) _).symm
  have hb := (h.back.front h.apart ha hsub).merges hga hst
  refine ⟨{ h with drains := ?_, back := hb }, ?_⟩
  · simp only [h.drains, set_cons_zero]
  · exact Relation.ReflTransGen.mono (fun _ _ hs => hs.mono (nil_subset _)) _ _ hst

/-- When the drain is gone, nothing is left of its copies. -/
theorem leave (hs : s.leave 0 = some t) : t.drains = [] ∧ (t.frozen = false → t.draining = []) := by
  simp only [System.leave, h.get, map_some, some.injEq] at hs
  subst hs
  refine ⟨by simp [h.drains], fun hf => eq_nil_iff_forall_not_mem.mpr fun d hd => ?_⟩
  obtain ⟨hd, hg⟩ := mem_retire hd
  exact hg h.guarded hf (h.owned d hd)

end Attempt

/-- An attempt in its loop: the entries of the first list have their row, and nothing has
been done for those of the second. -/
structure Storing (s : System) (batch : List QueuedMessage) (begun : ℕ) (drain : Drain)
    (stored pending storedBatch pendingBatch : List QueuedMessage) : Prop where
  attempt : Attempt s batch drain []
  inHand : drain.inHand = stored ++ pending
  batch_eq : batch = storedBatch ++ pendingBatch
  stored : List.Forall₂ (fun m b => Alike m b ∧ m.persisted = true) stored storedBatch
  pending : List.Forall₂ (fun m b => Alike m b ∧ m.persisted = b.persisted) pending pendingBatch
  begun_le : begun ≤ s.transcript.length
  rows : ∀ first, batch.head? = some first → s.transcript.drop begun =
    (storedBatch.filter fun m => !m.persisted).map (userRow first.turnId)

variable {begun : ℕ} {first : QueuedMessage}

namespace Storing

variable {stored pending storedBatch pendingBatch : List QueuedMessage} {m b : QueuedMessage}

theorem alike (h : Storing s batch begun drain stored pending storedBatch pendingBatch) :
    List.Forall₂ Alike drain.inHand batch := by
  rw [h.inHand, h.batch_eq]
  exact rel_append (h.stored.imp fun _ _ hmb => hmb.1) (h.pending.imp fun _ _ hmb => hmb.1)

theorem head (h : Storing s batch begun drain stored pending storedBatch pendingBatch)
    (hf : drain.inHand.head? = some first) :
    ∃ b, batch.head? = some b ∧ b.turnId = first.turnId := by
  obtain ⟨rest, hin⟩ := List.head?_eq_some_iff.mp hf
  have ha := h.alike
  rw [hin] at ha
  obtain ⟨b, batchRest, hf, -, rfl⟩ := forall₂_cons_left_iff.mp ha
  exact ⟨b, rfl, hf.turnId.symm⟩

variable (h : Storing s batch begun drain stored (m :: pending) storedBatch (b :: pendingBatch))
include h

theorem skip (hm : m.persisted = true) :
    Storing s batch begun drain (stored ++ [m]) pending (storedBatch ++ [b]) pendingBatch := by
  obtain ⟨hmb, hp⟩ := forall₂_cons.mp h.pending
  refine ⟨h.attempt, h.inHand.trans (append_cons ..), h.batch_eq.trans (append_cons ..),
    rel_append h.stored (.cons ⟨hmb.1, hm⟩ .nil), hp, h.begun_le, fun first hf => ?_⟩
  rw [h.rows first hf, filter_append, filter_cons_of_neg (by simp [← hmb.2, hm]),
    filter_nil, append_nil]

theorem append (hinv : Inv s) (hm : m.persisted = false) (hf : drain.inHand.head? = some first)
    (hs : s.append 0 m.id first.turnId true = some t) : t.live = s.live ∧ Storing t batch begun
      { drain with inHand := stored ++ { m with persisted := true } :: pending }
      (stored ++ [{ m with persisted := true }]) pending (storedBatch ++ [b]) pendingBatch := by
  have hids := hinv.inHand_nodup (mem_of_getElem? h.attempt.get)
  rw [h.inHand] at hids
  have hfi : drain.inHand.find? (·.id = m.id) = some m := by
    rw [h.inHand, List.find?_append, List.find?_eq_none.mpr, none_or,
      List.find?_cons_of_pos (by simp)]
    intro x hx
    simpa using key_ne_of_append hids x hx m (by simp)
  obtain ⟨hmb, hp⟩ := forall₂_cons.mp h.pending
  obtain ⟨b₀, hb₀, ht⟩ := h.head hf
  rw [System.append, h.attempt.get, bind_eq_bind, bind_some, hfi,
    bind_eq_bind, bind_some, if_neg (by simp [hm]), if_pos rfl] at hs
  cases hs
  have ha := (h.attempt.commit m.id (s.transcript ++ [⟨m.id, first.turnId, m.submissions⟩]))
    |>.updateInHand m.id ({ · with persisted := true })
  rw [h.inHand, map_key_split hids] at ha
  refine ⟨rfl, ha, append_cons .., h.batch_eq.trans (append_cons ..),
    rel_append h.stored (.cons ⟨{ hmb.1 with }, rfl⟩ .nil), hp, ?_, fun first' hf' => ?_⟩
  · exact h.begun_le.trans (by simp [System.updateInHand])
  · obtain rfl : b₀ = first' := some.inj (hb₀.symm.trans hf')
    change (s.transcript ++ [_]).drop begun = _
    rw [drop_append_of_le_length h.begun_le, h.rows b₀ hb₀, filter_append,
      filter_cons_of_pos (by simp [← hmb.2, hm]), filter_nil, map_append,
      map_singleton, userRow, ht, ← hmb.1.id, ← hmb.1.submissions]

end Storing

inductive Progress (s : System) (batch : List QueuedMessage) (begun : ℕ) : Phase → Prop
  | idle (hdrains : s.drains = []) (hdraining : s.frozen = false → s.draining = []) :
      Progress s batch begun .idle
  | storing {drain : Drain} {stored pending storedBatch pendingBatch : List QueuedMessage}
      (h : Storing s batch begun drain stored pending storedBatch pendingBatch) :
      Progress s batch begun (.storing stored.length)
  | tailBack {drain : Drain} {head tail headBatch : List QueuedMessage} {failed b : QueuedMessage}
      (hattempt : Attempt s batch drain tail) (hinHand : drain.inHand = head ++ [failed])
      (hbatch : batch = headBatch ++ b :: tail) (hhead : List.Forall₂ Alike head headBatch)
      (hfailed : Alike failed b) : Progress s batch begun (.tailBack head.length)
  | failedBack {drain : Drain} {head kept headBatch back : List QueuedMessage}
      (hattempt : Attempt s batch drain back) (hinHand : drain.inHand = head ++ kept)
      (hbatch : batch = headBatch ++ back) (hhead : List.Forall₂ Alike head headBatch) :
      Progress s batch begun (.failedBack head.length)
  | parked {drain : Drain} (hattempt : Attempt s batch drain batch) : Progress s batch begun .parked

namespace Progress

variable {phase : Phase}
variable (h : Progress s batch begun phase)
include h

theorem attempt (hp : phase ≠ .idle) : ∃ drain back, Attempt s batch drain back := by
  cases h with
  | idle _ _ => exact absurd rfl hp
  | storing h => exact ⟨_, _, h.attempt⟩
  | tailBack ha | failedBack ha | parked ha => exact ⟨_, _, ha⟩

theorem guarded : ∀ drain ∈ s.drains, drain.guarded = true := by
  intro drain hd
  by_cases hp : phase = .idle
  · subst hp
    cases h with
    | idle hdr _ => simp [hdr] at hd
  · obtain ⟨drain', back, ha⟩ := h.attempt hp
    rw [ha.drains, mem_singleton] at hd
    exact hd ▸ ha.guarded

/-- A step of others, which takes nothing out of any hands. -/
theorem frame (htr : t.transcript = s.transcript)
    (hat : ∀ drain back, Attempt s batch drain back → Attempt t batch drain back)
    (hdra : t.drains = s.drains) (hdr : t.frozen = false → t.draining = s.draining)
    (hfr : t.frozen = false → s.frozen = false) : Progress t batch begun phase := by
  cases h with
  | idle hno hem =>
    exact .idle (hdra.trans hno) fun ht => (hdr ht).trans (hem (hfr ht))
  | storing h =>
    exact .storing { h with
      attempt := hat _ _ h.attempt
      begun_le := htr ▸ h.begun_le
      rows := htr ▸ h.rows }
  | tailBack h hin hba hhe hfa =>
    exact .tailBack (hat _ _ h) hin hba hhe hfa
  | failedBack h hin hba hhe => exact .failedBack (hat _ _ h) hin hba hhe
  | parked h => exact .parked (hat _ _ h)

end Progress

end Intentd.FlushTurns
