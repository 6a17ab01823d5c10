import Intentd.MessageQueue

/-!
# No queued message is lost or doubled

Every entry is live or in the hands of one guard, the entries hold no submission twice,
and what a guard has in hand is in the draining list under an id that no other guard
names. The last part is what a pop can break: an entry that was handed back and is popped
again while its first guard is still there is named by two guards, and the first of them
to go takes it off the draining list.
-/
namespace Intentd.MessageQueue
open QueuedMessages KeyedLists LabelledRuns List Option

/-- What one guard has in hand the other does not name. -/
def Separate (g g' : DrainingGuard) : Prop :=
  (∀ m ∈ g.inHand, m.id ∉ g'.ids) ∧ ∀ m ∈ g'.inHand, m.id ∉ g.ids

attribute [local simp] System.initial System.hands

theorem Separate.symm {g g' : DrainingGuard} (h : Separate g g') : Separate g' g := And.symm h

structure Inv (s : System) : Prop where
  sound : Sound s.lastOrder (s.live ++ s.hands)
  unstored : ∀ m ∈ s.live ++ s.hands, m.persisted = false
  listed : ∀ guard ∈ s.guards, ∀ m ∈ guard.inHand,
    m.id ∈ guard.ids ∧ { m with provisional := true } ∈ s.draining
  drained : ∀ d ∈ s.draining, EntryOk d
  owned : s.guards.Pairwise Separate
  accepted : ∀ sub ∈ s.accepted, sub ∉ s.delivered →
    sub ∈ (s.live ++ s.hands).flatMap QueuedMessage.submissions
  expectation : s.expectationFailed = false

variable {s : System}

namespace Inv

variable {guard folded : DrainingGuard} {rest guards : List DrainingGuard} {m : QueuedMessage}
  {back queue : List QueuedMessage} {id : String}

theorem initial : Inv .initial where
  sound := ⟨by simp, nodup_nil, .nil, by simp⟩
  unstored := by simp
  listed := by simp
  drained := by simp
  owned := .nil
  accepted := by simp
  expectation := rfl

variable (h : Inv s)
include h

theorem copy (hm : m ∈ s.hands) : { m with provisional := true } ∈ s.draining := by
  obtain ⟨guard, hg, hm⟩ := mem_flatMap.mp hm
  exact (h.listed guard hg m hm).2

theorem regroup {live draining : List QueuedMessage}
    (hh : (s.live ++ s.hands).Perm (live ++ guards.flatMap DrainingGuard.inHand))
    (hl : ∀ guard ∈ guards, ∀ m ∈ guard.inHand,
      m.id ∈ guard.ids ∧ { m with provisional := true } ∈ draining)
    (hd : ∀ d ∈ draining, EntryOk d) (ho : guards.Pairwise Separate) :
    Inv { s with live := live, draining := draining, guards := guards } where
  sound := h.sound.perm hh
  unstored := fun m hm => h.unstored m (hh.mem_iff.mpr hm)
  listed := hl
  drained := hd
  owned := ho
  accepted := fun sub hsub hnot => (hh.flatMap_right _).mem_iff.mp (h.accepted sub hsub hnot)
  expectation := h.expectation

theorem perm (hp : s.guards.Perm guards) : Inv { s with guards := guards } :=
  h.regroup ((hp.flatMap_right _).append_left _)
    (fun guard hg => h.listed guard (hp.mem_iff.mpr hg)) h.drained
    (h.owned.perm hp Separate.symm)

theorem permLive (hp : s.live.Perm queue) : Inv { s with live := queue } :=
  h.regroup (hp.append_right _) h.listed h.drained h.owned

theorem giveBack (hgu : s.guards = guard :: rest) {kept : List QueuedMessage}
    (hp : guard.inHand.Perm (back ++ kept)) :
    Inv { s with live := back ++ s.live, guards := { guard with inHand := kept } :: rest } := by
  have hh : s.hands = guard.inHand ++ rest.flatMap DrainingGuard.inHand := by
    rw [System.hands, hgu, flatMap_cons]
  have hhe : (s.live ++ s.hands).Perm
      ((back ++ s.live) ++ (kept ++ rest.flatMap DrainingGuard.inHand)) := by
    rw [hh]
    refine ((hp.append_right _).append_left _).trans ?_
    rw [append_assoc, append_assoc]
    exact perm_append_comm_assoc ..
  have ho := h.owned
  rw [hgu] at ho
  obtain ⟨hs, hr⟩ := pairwise_cons.mp ho
  have hk : ∀ m ∈ kept, m ∈ guard.inHand := fun m hm => hp.mem_iff.mpr (by simp [hm])
  refine h.regroup hhe ?_ h.drained ?_
  · intro g hg m hm
    rcases mem_cons.mp hg with rfl | hg
    · exact h.listed guard (by simp [hgu]) m (hk m hm)
    · exact h.listed g (by simp [hgu, hg]) m hm
  · refine pairwise_cons.mpr ⟨fun g hg => ⟨fun m hm => ?_, (hs g hg).2⟩, hr⟩
    exact (hs g hg).1 m (hk m hm)

theorem giveBackAt {g : ℕ} (hg : s.guards[g]? = some guard)
    {kept : List QueuedMessage} (hp : guard.inHand.Perm (back ++ kept)) :
    Inv { s with
      live := back ++ s.live
      guards := s.guards.set g { guard with inHand := kept } } := by
  obtain ⟨before, after, hs, hset, -, -⟩ := split_at hg
  have hf := h.perm (hs ▸ perm_middle)
  rw [hset]
  exact (hf.giveBack rfl hp).perm perm_middle.symm

theorem mergeLive {e f : QueuedMessage} (hl : s.live = e :: f :: queue)
    (hs : Sound s.lastOrder (e.appendPending f :: (queue ++ s.hands))) :
    Inv { s with live := e.appendPending f :: queue } := by
  have hu := h.unstored
  have ha := h.accepted
  simp only [hl, cons_append, forall_mem_cons, flatMap_cons] at hu ha
  refine { h with
    sound := hs
    unstored := forall_mem_cons.mpr ⟨hu.1, hu.2.2⟩
    accepted := fun sub hsub hnot => ?_ }
  simpa [QueuedMessage.appendPending] using ha sub hsub hnot

theorem coalesce : ∃ queue', coalescePendingQueue s.live s.draining = some queue' ∧
      Inv { s with live := queue' } ∧ (queue'.flatMap QueuedMessage.submissions).Perm
        (s.live.flatMap QueuedMessage.submissions) := by
  obtain ⟨queue', hrun, hso, hs⟩ := coalescePendingQueue_sound h.sound (by
    intro m hm hh
    exact ⟨_, h.copy hm, rfl, hh, rfl, rfl⟩)
  have hids := (h.sound.sublist (sublist_append_left ..)).id_nodup
  have hp := submissions_perm_of_merges hids hs
  have hl : ∀ m ∈ queue', m.persisted = false :=
    forall_of_merges (fun _ _ _ he _ => he) hids hs fun m hm => h.unstored m (mem_append_left _ hm)
  refine ⟨queue', hrun, { h with sound := hso, unstored := ?_, accepted := ?_ }, hp⟩
  · exact forall_mem_append.mpr ⟨hl, (forall_mem_append.mp h.unstored).2⟩
  · intro sub hsub hnot
    have := h.accepted sub hsub hnot
    rw [flatMap_append] at this ⊢
    exact (hp.append_right _).mem_iff.mpr this

theorem finds (hp : (s.live.flatMap QueuedMessage.submissions).Perm
      (queue.flatMap QueuedMessage.submissions)) (hm : m ∈ queue)
    (hid : id ∈ m.submissions.map Submission.id) :
    ∃ live ∈ s.live, live.matchesSubmission id = true := by
  obtain ⟨sub, hsub, rfl⟩ := mem_map.mp hid
  obtain ⟨live, hl, hmem⟩ := mem_flatMap.mp (hp.mem_iff.mpr (mem_flatMap.mpr ⟨m, hm, hsub⟩))
  refine ⟨live, hl, ((h.sound.entry live (mem_append_left _ hl)).ids sub.id).mpr ?_⟩
  exact mem_map_of_mem hmem

/-- What leaves the live queue is registered under a guard of its own. -/
theorem pop {popped live : List QueuedMessage} (hpe : s.live.Perm (popped ++ live))
    (hf : ∀ m ∈ popped, ∀ guard ∈ s.guards, m.id ∉ guard.ids) :
    Inv { s with
      live := live
      draining := s.draining ++ registered popped
      guards := ⟨popped.map QueuedMessage.id, popped⟩ :: s.guards } := by
  have hh : (s.live ++ s.hands).Perm (live ++ (popped ++ s.hands)) := by
    refine (hpe.append_right _).trans ?_
    rw [append_assoc]
    exact perm_append_comm_assoc ..
  have hp : ∀ m ∈ popped, m ∈ s.live := fun m hm => hpe.mem_iff.mpr (by simp [hm])
  refine h.regroup hh ?_ ?_ ?_
  · intro g hg m hm
    rcases mem_cons.mp hg with rfl | hg
    · refine ⟨mem_map_of_mem hm, mem_append_right _ (mem_map.mpr ⟨m, hm, ?_⟩)⟩
      rw [h.unstored m (mem_append_left _ (hp m hm))]
      rfl
    · exact ⟨(h.listed g hg m hm).1, mem_append_left _ (h.listed g hg m hm).2⟩
  · intro d hd
    rcases mem_append.mp hd with hd | hd
    · exact h.drained d hd
    · obtain ⟨m, hm, rfl⟩ := mem_map.mp hd
      exact (h.sound.entry m (mem_append_left _ (hp m hm))).provisional _
  · refine pairwise_cons.mpr ⟨fun g hg => ⟨fun m hm => hf m hm g hg, ?_⟩, h.owned⟩
    -- an entry in hand and one that is popped are two of the held ones
    intro m hm hmem
    have hids := (hh.map QueuedMessage.id).nodup_iff.mp h.sound.id_nodup
    rw [map_append, map_append] at hids
    have hdi := (nodup_append.mp (nodup_append.mp hids).2.1).2.2
    exact hdi _ hmem _ (mem_map_of_mem (mem_flatMap.mpr ⟨g, hg, hm⟩)) rfl

theorem drop (hgu : s.guards = guard :: rest) : Inv { s with
      draining := s.draining.filter fun m => m.id ∉ guard.ids
      guards := rest
      delivered := s.delivered ++ guard.inHand.flatMap QueuedMessage.submissions } := by
  have hh : s.hands = guard.inHand ++ rest.flatMap DrainingGuard.inHand := by
    rw [System.hands, hgu, flatMap_cons]
  have hsub : (s.live ++ rest.flatMap DrainingGuard.inHand).Sublist (s.live ++ s.hands) := by
    rw [hh]
    exact (sublist_append_right ..).append_left _
  have ho := h.owned
  rw [hgu] at ho
  obtain ⟨hs, hr⟩ := pairwise_cons.mp ho
  refine ⟨h.sound.sublist hsub, fun m hm => h.unstored m (hsub.mem hm), ?_, ?_, hr,
    ?_, h.expectation⟩
  · intro g hg m hm
    obtain ⟨hid, hc⟩ := h.listed g (by simp [hgu, hg]) m hm
    exact ⟨hid, mem_filter.mpr ⟨hc, by simpa using (hs g hg).2 m hm⟩⟩
  · exact fun d hd => h.drained d (mem_of_mem_filter hd)
  · intro sub hsub hnot
    have hmem := h.accepted sub hsub fun hd => hnot (mem_append_left _ hd)
    rw [hh] at hmem
    simp only [flatMap_append, mem_append] at hmem hnot ⊢
    tauto

theorem fold (hgu : s.guards = guard :: folded :: rest) : Inv { s with
      guards := ⟨guard.ids ++ folded.ids, guard.inHand ++ folded.inHand⟩ :: rest } := by
  have hh : s.live ++ s.hands =
      s.live ++ ((guard.inHand ++ folded.inHand) ++ rest.flatMap DrainingGuard.inHand) := by
    rw [System.hands, hgu, flatMap_cons, flatMap_cons, append_assoc]
  have ho := h.owned
  rw [hgu] at ho
  obtain ⟨hf, hr⟩ := pairwise_cons.mp ho
  obtain ⟨hs, hr⟩ := pairwise_cons.mp hr
  refine h.regroup (.of_eq hh) ?_ h.drained ?_
  · intro g hg m hm
    rcases mem_cons.mp hg with rfl | hg
    · rcases mem_append.mp hm with hm | hm
      · obtain ⟨hid, hc⟩ := h.listed guard (by simp [hgu]) m hm
        exact ⟨mem_append_left _ hid, hc⟩
      · obtain ⟨hid, hc⟩ := h.listed folded (by simp [hgu]) m hm
        exact ⟨mem_append_right _ hid, hc⟩
    · exact h.listed g (by simp [hgu, hg]) m hm
  · refine pairwise_cons.mpr ⟨fun g hg => ⟨fun m hm => ?_, fun m hm => ?_⟩, hr⟩
    · rcases mem_append.mp hm with hm | hm
      · exact (hf g (mem_cons_of_mem _ hg)).1 m hm
      · exact (hs g hg).1 m hm
    · rw [mem_append, not_or]
      exact ⟨(hf g (mem_cons_of_mem _ hg)).2 m hm, (hs g hg).2 m hm⟩

theorem notMem_heldIds (hf : ∀ m ∈ s.live ++ s.draining, m.matchesSubmission id = false) :
    id ∉ heldIds (s.live ++ s.hands) := by
  intro hmem
  obtain ⟨m, hm, hid⟩ := mem_flatMap.mp hmem
  have hma := ((h.sound.entry m hm).ids id).mpr hid
  rcases mem_append.mp hm with hm | hm
  · exact absurd hma (by simp [hf m (mem_append_left _ hm)])
  · have hc := hf _ (mem_append_right _ (h.copy hm))
    exact absurd hma (Bool.eq_false_iff.mp hc)

theorem accept (r : Request) (hfr : ∀ m ∈ s.live ++ s.draining, m.matchesSubmission r.id = false)
    (hac : Accepts s.live s.draining (r.entry (s.lastOrder + 1)) queue) :
    Inv { s with
      live := queue
      lastOrder := s.lastOrder + 1
      accepted := s.accepted ++ [r.submission (s.lastOrder + 1)] } := by
  have hins : Inv { s with
      live := r.entry (s.lastOrder + 1) :: s.live
      lastOrder := s.lastOrder + 1
      accepted := s.accepted ++ [r.submission (s.lastOrder + 1)] } := { h with
    sound := h.sound.fresh r (h.notMem_heldIds hfr)
    unstored := forall_mem_cons.mpr ⟨rfl, h.unstored⟩
    accepted := fun sub hsub hnot => by
      rcases mem_append.mp hsub with hsub | hsub
      · exact mem_append_right _ (h.accepted sub hsub hnot)
      · exact mem_append_left _ hsub }
  cases hac with
  | insert hsp =>
    refine hins.permLive ?_
    rw [hsp]
    exact perm_middle.symm
  | @merge e older newer hsp hme hba hla =>
    have hli : s.live.Perm (e :: (older ++ newer)) := hsp ▸ perm_middle
    have hhe : (s.live ++ s.hands).Perm (e :: ((older ++ newer) ++ s.hands)) :=
      hli.append_right _
    have he : e ∈ s.live ++ s.hands := hhe.mem_iff.mpr (by simp)
    have hbe : Before e (r.entry (s.lastOrder + 1)) := by
      intro a ha b hb
      rw [mem_singleton.mp hb]
      exact Nat.lt_succ_of_le (((h.sound.entry e he).order_le ha).trans (h.sound.le e he))
    -- no other held entry of a human is later than the one that is merged into
    have hlas : ∀ g ∈ (older ++ newer) ++ s.hands, g.isHumanQueueEntry = true → Before g e := by
      intro g hg hhu
      have hgh : g ∈ s.live ++ s.hands := hhe.mem_iff.mpr (mem_cons_of_mem _ hg)
      have hid : g.id ≠ e.id := by
        intro hid
        have hids := (hhe.map QueuedMessage.id).nodup_iff.mp h.sound.id_nodup
        exact (nodup_cons.mp hids).1 (hid ▸ mem_map_of_mem hg)
      refine h.sound.before_of_order_le hgh he hid hhu (QueuedMessage.canMergePending_iff hme).1 ?_
      rcases mem_append.mp hgh with hg | hg
      · exact hla g hg hhu
      · refine Nat.not_lt.mp fun hlt => any_eq_false.mp hba _ (h.copy hg) ?_
        simp only [Bool.and_eq_true, decide_eq_true_eq]
        exact ⟨⟨trivial, hhu⟩, hlt⟩
    have hin := hins.permLive ((hli.cons _).trans (.swap ..))
    have hso := hin.sound.merge hme hbe fun g hg hhu => .inl (hlas g hg hhu)
    exact (hin.mergeLive rfl hso).permLive perm_middle.symm

/-- What a step does to the queue and its drains keeps the invariant, unless a pop takes
an entry that an outstanding guard names. -/
theorem step {l : Label} {t : System} (hst : next s l = some t) (hun : Undisturbed s l) :
    Inv t := by
  cases l with
  | enqueue r =>
    cases hst
    by_cases hhe : ∃ m ∈ s.live ++ s.draining, m.matchesSubmission r.id = true
    · rw [System.enqueue_of_held hhe]
      exact h
    · have hfr : ∀ m ∈ s.live ++ s.draining, m.matchesSubmission r.id = false := by
        intro m hm
        exact Bool.eq_false_iff.mpr fun hma => hhe ⟨m, hm, hma⟩
      obtain ⟨queue, hac, heq⟩ := System.enqueue_of_fresh hfr
      rw [heq]
      exact h.accept r hfr hac
  | otherAgent =>
    cases hst
    refine { h with sound := ⟨h.sound.entry, h.sound.ids, h.sound.apart, ?_⟩ }
    exact fun m hm => (h.sound.le m hm).trans (Nat.le_succ _)
  | pop p =>
    obtain ⟨⟨popped, live⟩, hrun, rfl⟩ := map_eq_some_iff.mp hst
    exact (h.pop (run_spec hrun).2 (hun _ hrun)).perm (perm_append_singleton _ s.guards).symm
  | handBackBatch g chosen =>
    obtain ⟨guard, hgu, rfl⟩ := map_eq_some_iff.mp hst
    have hba := h.giveBackAt hgu (filter_append_perm (fun m => chosen m.id) _).symm
    unfold requeueFrontBatch
    by_cases hno : (guard.inHand.filter fun m => chosen m.id).isEmpty
    · rw [if_pos hno]
      rwa [List.isEmpty_iff.mp hno] at hba
    · obtain ⟨queue', hrun, hinv, -⟩ := hba.coalesce
      rw [if_neg hno, show coalescePendingQueue _ _ = some queue' from hrun]
      exact hinv
  | handBack g id =>
    obtain ⟨guard, hgu, hst⟩ := bind_eq_some_iff.mp hst
    obtain ⟨⟨m, kept⟩, hrem, heq⟩ := bind_eq_some_iff.mp hst
    cases heq
    have hpe : guard.inHand.Perm ([m] ++ kept) := (removeFirst_spec hrem).2
    have hba := h.giveBackAt hgu hpe
    obtain ⟨queue', hrun, hinv, hsu⟩ := hba.coalesce
    have hre : (requeueFront s.live s.draining m).map Prod.fst = some queue' :=
      requeueFront_eq_some hrun (hinv.finds hsu (mem_cons_self ..)
        (hba.sound.entry m (by simp)).matches_self)
    rw [hre]
    exact hinv
  | drop g =>
    obtain ⟨guard, hgu, rfl⟩ := map_eq_some_iff.mp hst
    obtain ⟨before, after, hsp, -, her, -⟩ := split_at hgu
    have hfro := h.perm (hsp ▸ perm_middle)
    have := hfro.drop rfl
    rw [her]
    exact this
  | merge g other =>
    obtain ⟨guard, hgu, hst⟩ := bind_eq_some_iff.mp hst
    obtain ⟨folded, hfo, heq⟩ := bind_eq_some_iff.mp hst
    cases heq
    obtain ⟨before, after, hsp, -, her, -⟩ := split_at hgu
    obtain ⟨before', after', hsp', hset, -, -⟩ := split_at hfo
    have hpe : s.guards.Perm (guard :: folded :: (before' ++ after')) := by
      rw [hsp]
      refine perm_middle.trans (.cons _ ?_)
      rw [← her, hsp']
      exact perm_middle
    rw [hset]
    exact ((h.perm hpe).fold rfl).perm perm_middle.symm

end Inv

structure Kept (s : System) : Prop where
  /-- An accepted submission that is not delivered is in one of the two lists. -/
  held : ∀ sub ∈ s.accepted, sub ∉ s.delivered → ∃ m ∈ s.live ++ s.draining, sub ∈ m.submissions
  ids : ∀ m ∈ s.live ++ s.draining, ∀ id,
    m.matchesSubmission id = true ↔ id ∈ m.submissions.map Submission.id
  once : (heldIds s.live).Nodup
  retry : ∀ r : Request, ∀ sub ∈ s.accepted, sub ∉ s.delivered → r.id = sub.id → s.enqueue r = s
  text : ∀ m ∈ s.live ++ s.draining,
    m.content = "\n\n".intercalate (m.submissions.map Submission.content) ∧
      m.submissions.Pairwise (·.order < ·.order)
  principal : ∀ m ∈ s.live ++ s.draining, ∀ a ∈ m.submissions, ∀ b ∈ m.submissions,
    a.principal = b.principal
  expectation : s.expectationFailed = false

theorem Inv.held (h : Inv s) {sub : Submission} (hsub : sub ∈ s.accepted)
    (hnot : sub ∉ s.delivered) : ∃ m ∈ s.live ++ s.draining, sub ∈ m.submissions := by
  obtain ⟨m, hm, hmem⟩ := mem_flatMap.mp (h.accepted sub hsub hnot)
  rcases mem_append.mp hm with hm | hm
  · exact ⟨m, mem_append_left _ hm, hmem⟩
  · exact ⟨_, mem_append_right _ (h.copy hm), hmem⟩

theorem Inv.kept (h : Inv s) : Kept s := by
  have he : ∀ m ∈ s.live ++ s.draining, EntryOk m :=
    forall_mem_append.mpr ⟨(forall_mem_append.mp h.sound.entry).1, h.drained⟩
  refine ⟨fun sub => h.held, fun m hm => (he m hm).ids, ?_, ?_, ?_, ?_, h.expectation⟩
  · exact (h.sound.sublist (sublist_append_left ..)).ids
  · intro r sub hsub hnot hid
    obtain ⟨m, hm, hmem⟩ := h.held hsub hnot
    refine System.enqueue_of_held ⟨m, hm, ((he m hm).ids r.id).mpr ?_⟩
    exact hid ▸ mem_map_of_mem hmem
  · exact fun m hm => ⟨(he m hm).content, (he m hm).sorted⟩
  · intro m hm a ha b hb
    rw [(he m hm).principal a ha, (he m hm).principal b hb]

/-- In every run in which no pop takes an entry that an outstanding guard names, nothing
is lost or doubled. -/
theorem queue_keeps_submissions {labels : List Label} {s : System}
    (h : Run (fun s l t => Step s l t ∧ Undisturbed s l) .initial labels s) : Kept s :=
  (h.invariant (I := Inv) Inv.initial fun _ _ _ hinv hs => hinv.step hs.1 hs.2).kept

/-- An entry goes back to the queue, its guard goes, and it is popped again. -/
theorem queue_keeps_submissions_redelivered :
    ∃ s, Run (fun s l t => Step s l t ∧ Undisturbed s l) .initial
        [.enqueue greeting, .pop .userOrigin, .handBack 0 "a", .drop 0, .pop .userOrigin] s ∧
      Kept s := by
  have hn : ∀ {s : System} {p : Pop}, s.guards = [] → Undisturbed s (.pop p) := by
    intro s p hgu r _ m _ guard hg
    rw [hgu] at hg
    cases hg
  obtain ⟨s, hrun⟩ : ∃ s, Run (fun s l t => Step s l t ∧ Undisturbed s l) .initial
      [.enqueue greeting, .pop .userOrigin, .handBack 0 "a", .drop 0, .pop .userOrigin] s :=
    ⟨_, .cons ⟨rfl, trivial⟩ <| .cons ⟨rfl, hn rfl⟩ <| .cons ⟨rfl, trivial⟩ <|
      .cons ⟨rfl, trivial⟩ <| .cons ⟨rfl, hn rfl⟩ .nil⟩
  exact ⟨s, hrun, queue_keeps_submissions hrun⟩

/-- The entry is popped again while its first guard is still there; when that guard goes,
the entry is in neither list, though it was not delivered. -/
theorem popped_again_is_lost : ∃ s, Run Step .initial
        [.enqueue greeting, .pop .userOrigin, .handBack 0 "a", .pop .userOrigin, .drop 0] s ∧
      ¬ Kept s := by
  refine ⟨_, .of_foldlM (f := next) (fun _ _ _ h => h) rfl, fun h => ?_⟩
  obtain ⟨m, hm, -⟩ := h.held (greeting.submission 1) (mem_singleton.mpr rfl) (not_mem_nil)
  cases hm

end Intentd.MessageQueue
