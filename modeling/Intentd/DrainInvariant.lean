import Intentd.DrainEntries

/-!
# The draining list under pops, hand-backs and a freeze

Every entry of the draining list is a copy of one that is in the hands of a drain, or is
covered by a live entry it was handed back into, or, once the list is frozen, is all that
is left of a message. No two of its entries share an id. A pop of an entry that is the
same as a listed one would break this, and nothing else does.
-/
namespace Intentd.QueueDrains
open QueuedMessages KeyedLists MessageQueue List Option

structure Overlay (s : System) : Prop where
  listed : ∀ d ∈ s.draining, Known d
  apart : s.draining.Pairwise Distinct
  carried : ∀ d ∈ s.draining, (∃ m ∈ s.live, Covers m d) ∨
    (∃ g ∈ s.drains, (g.guarded = true ∨ s.frozen = true) ∧ ∃ m ∈ g.inHand, Alike d m) ∨
    s.frozen = true ∧ ∀ m ∈ s.held, Distinct m d
  copies : ∀ g ∈ s.drains, g.guarded = true → ∀ m ∈ g.inHand, m.id ∈ g.ids ∧
    ∃ d ∈ s.draining, Alike d m
  registered : ∀ g ∈ s.drains, g.guarded = true → ∀ id ∈ g.ids, ∃ d ∈ s.draining, d.id = id
  separate : s.drains.Pairwise fun g g' =>
    g.guarded = true → g'.guarded = true → ∀ id ∈ g.ids, id ∉ g'.ids
  stamped : ∀ d ∈ s.draining, ∀ row ∈ s.transcript, ∀ sub ∈ d.submissions, sub ∈ row.submissions →
    (∃ m ∈ s.live, Covers m d) ∨ d.persisted = true ∨ ∃ row' ∈ s.transcript,
      row'.queuedMessageId = d.id

structure Inv (s : System) : Prop where
  entries : Entries s.lastOrder s.transcript s.held
  overlay : Overlay s
  expectation : s.expectationFailed = false

attribute [local simp] System.initial System.held

theorem Inv.initial : Inv .initial where
  entries := ⟨by simp, .nil, by simp, by simp, by simp, nodup_nil, by simp⟩
  overlay := ⟨by simp, .nil, by simp, by simp, by simp, .nil, by simp⟩
  expectation := rfl

variable {s : System} {m : QueuedMessage}

theorem mem_held_of_inHand {g : Drain} (hg : g ∈ s.drains) (hm : m ∈ g.inHand) : m ∈ s.held :=
  mem_append_right _ (mem_flatMap.mpr ⟨g, hg, hm⟩)

variable {drains : List Drain} {drain : Drain}

theorem held_perm (hdrains : s.drains = drain :: drains) :
    s.held.Perm (drain.inHand ++ (s.live ++ drains.flatMap Drain.inHand)) := by
  rw [System.held, hdrains, flatMap_cons]
  exact perm_append_comm_assoc ..

def CoveredBy (after before : List QueuedMessage) : Prop := ∀ m ∈ before, ∃ m' ∈ after, Covers m' m

section Covered

variable {after before : List QueuedMessage}

theorem CoveredBy.of_subset (h : before ⊆ after) : CoveredBy after before :=
  fun m hm => ⟨m, h hm, .refl m⟩

theorem CoveredBy.covers (h : CoveredBy after before) (hm : ∃ e ∈ before, Covers e m) :
    ∃ e ∈ after, Covers e m := by
  obtain ⟨e, he, hc⟩ := hm
  obtain ⟨e', he', hc'⟩ := h e he
  exact ⟨e', he', hc'.trans hc⟩

end Covered

/-- What is held under an id was held under it before, unless no listed entry has that id. -/
def KeepsIds (s : System) (live : List QueuedMessage) : Prop :=
  ∀ m' ∈ live, ∀ id, m'.matchesSubmission id = true →
    (∃ m ∈ s.held, m.matchesSubmission id = true) ∨ ∀ d ∈ s.draining, d.matchesSubmission id = false

theorem KeepsIds.refl (s : System) : KeepsIds s s.live :=
  fun m hm _ hid => .inl ⟨m, mem_append_left _ hm, hid⟩

variable {live kept : List QueuedMessage}

section Live

variable {barred : List ℕ}

/-- Entries move between the queue and the hands of the drains. Each is covered by one of the new
queue or is still in the hands of a drain that keeps its guard. -/
theorem Overlay.moved (h : Overlay s) (order : ℕ) (hcove : CoveredBy live s.live)
    (hmo : ∀ g ∈ s.drains, ∀ m ∈ g.inHand, (∃ m' ∈ live, Covers m' m) ∨
      ∃ g' ∈ drains, (g.guarded = true → g'.guarded = true) ∧ ∃ m' ∈ g'.inHand, Alike m m')
    (hli : KeepsIds s live) (hfro : ∀ g' ∈ drains, ∀ m' ∈ g'.inHand, ∃ g ∈ s.drains,
      (g'.guarded = true → g.guarded = true) ∧
      (∀ id ∈ g.ids, id ∈ g'.ids) ∧ ∃ m ∈ g.inHand, Alike m' m)
    (hids : ∀ g' ∈ drains, g'.guarded = true → ∀ id ∈ g'.ids, ∃ g ∈ s.drains, g.guarded = true ∧
      id ∈ g.ids)
    (hse : drains.Pairwise fun g g' => g.guarded = true → g'.guarded = true →
      ∀ id ∈ g.ids, id ∉ g'.ids) :
    Overlay { s with live := live, drains := drains, lastOrder := order } := by
  refine ⟨h.listed, h.apart, fun d hd => ?_, fun g' hg' hgu m' hm' => ?_,
    fun g' hg' hgu id hid => ?_, hse, fun d hd row hrow sub hsub hmem =>
      (h.stamped d hd row hrow sub hsub hmem).imp_left hcove.covers⟩
  · rcases h.carried d hd with hca | ⟨g, hg, hgu, m, hm, hal⟩ | ⟨hfroz, hfr⟩
    · exact .inl (hcove.covers hca)
    · rcases hmo g hg m hm with ⟨m', hm', hco⟩ | ⟨g', hg', hgua, m', hm', hal'⟩
      · exact .inl ⟨m', hm', hco.trans hal.covers⟩
      · exact .inr (.inl ⟨g', hg', hgu.imp_left hgua, m', hm', hal.trans hal'⟩)
    · refine .inr (.inr ⟨hfroz, fun m' hm' => ?_⟩)
      rcases mem_append.mp hm' with hm' | hm'
      · intro id hid
        rcases hli m' hm' id hid with ⟨e, he, hid⟩ | hno
        · exact hfr e he id hid
        · exact hno d hd
      · obtain ⟨g', hg', hm'⟩ := mem_flatMap.mp hm'
        obtain ⟨g, hg, -, -, m, hm, hal⟩ := hfro g' hg' m' hm'
        exact hal.distinct (hfr m (mem_held_of_inHand hg hm))
  · obtain ⟨g, hg, hgua, hsub, m, hm, hal⟩ := hfro g' hg' m' hm'
    obtain ⟨hid, d, hd, hdm⟩ := h.copies g hg (hgua hgu) m hm
    exact ⟨hsub _ (hal.id ▸ hid), d, hd, hdm.trans hal.symm⟩
  · obtain ⟨g, hg, hgu, hid⟩ := hids g' hg' hgu id hid
    exact h.registered g hg hgu id hid

theorem Overlay.setLive (h : Overlay s) (order : ℕ) (hc : CoveredBy live s.live)
    (hids : KeepsIds s live) : Overlay { s with live := live, lastOrder := order } :=
  h.moved order hc (fun g hg m hm => .inr ⟨g, hg, id, m, hm, .refl m⟩) hids
    (fun g hg m hm => ⟨g, hg, id, fun _ => id, m, hm, .refl m⟩) (fun g hg hgu _ hid =>
      ⟨g, hg, hgu, hid⟩)
    h.separate

theorem Overlay.rehand (h : Overlay s) (hdrains : s.drains = drain :: drains)
    (hc : CoveredBy live s.live)
    (hmo : ∀ m ∈ drain.inHand, (∃ m' ∈ live, Covers m' m) ∨ ∃ m' ∈ kept, Alike m m')
    (hl : KeepsIds s live) (hk : ∀ m' ∈ kept, ∃ m ∈ drain.inHand, Alike m' m) :
    Overlay { s with live := live, drains := { drain with inHand := kept } :: drains } := by
  have hs := h.separate
  refine h.moved s.lastOrder hc ?_ hl ?_ ?_ ?_
  all_goals simp only [hdrains, mem_cons, forall_eq_or_imp, exists_eq_or_imp, pairwise_cons] at hs ⊢
  · refine ⟨fun m hm => (hmo m hm).imp_right fun hm' => .inl ⟨id, hm'⟩, fun g hg m hm => ?_⟩
    exact .inr (.inr ⟨g, hg, id, m, hm, .refl m⟩)
  · exact ⟨fun m hm => .inl ⟨id, fun _ => id, hk m hm⟩,
      fun g hg m hm => .inr ⟨g, hg, id, fun _ => id, m, hm, .refl m⟩⟩
  · exact ⟨fun hgu _ hid => .inl ⟨hgu, hid⟩, fun g hg hgu _ hid => .inr ⟨g, hg, hgu, hid⟩⟩
  · exact hs

variable (h : Inv s)
include h

theorem Inv.permLive (hp : s.live.Perm live) : Inv { s with live := live } where
  entries := h.entries.perm (hp.append_right _)
  overlay := h.overlay.setLive s.lastOrder (.of_subset hp.subset)
    (fun m hm _ hid => .inl ⟨m, mem_append_left _ (hp.mem_iff.mpr hm), hid⟩)
  expectation := h.expectation

theorem Inv.mergeLive {e f : QueuedMessage} {others : List QueuedMessage}
    (hl : s.live = e :: f :: others) (hme : e.canMergePending f = true) :
    Inv { s with live := e.appendPending f :: others } ∧
      CoveredBy (e.appendPending f :: others) s.live := by
  have hh : s.held = e :: f :: (others ++ s.drains.flatMap Drain.inHand) := by
    rw [System.held, hl]
    rfl
  have hen := h.entries
  rw [hh] at hen
  have he := hen.known e (by simp)
  have hf := hen.known f (by simp)
  have hc : CoveredBy (e.appendPending f :: others) s.live := by
    intro m hm
    rw [hl] at hm
    simp only [mem_cons] at hm
    rcases hm with rfl | rfl | hm
    · exact ⟨_, mem_cons_self .., covers_appendPending_left he hf hme⟩
    · exact ⟨_, mem_cons_self .., covers_appendPending_right he hf hme⟩
    · exact ⟨m, mem_cons_of_mem _ hm, .refl m⟩
  refine ⟨⟨hen.merge hme, h.overlay.setLive s.lastOrder hc ?_, h.expectation⟩, hc⟩
  intro m hm id hid
  rw [hh]
  rcases mem_cons.mp hm with rfl | hm
  · rcases (appendPending_matches he hf hme id).mp hid with hid | hid
    · exact .inl ⟨e, by simp, hid⟩
    · exact .inl ⟨f, by simp, hid⟩
  · exact .inl ⟨m, by simp [hm], hid⟩

theorem Inv.mergeStep (hs : MergeStep barred s.live live) :
    Inv { s with live := live } ∧ CoveredBy live s.live := by
  have hids := (h.entries.sublist (sublist_append_left s.live _)).id_nodup
  obtain ⟨e, f, others, hme, hp, hp'⟩ := hs.perm hids
  obtain ⟨hinv, hc⟩ := (h.permLive hp).mergeLive rfl hme
  refine ⟨hinv.permLive hp'.symm, fun m hm => ?_⟩
  exact (CoveredBy.of_subset hp'.symm.subset).covers (hc m (hp.mem_iff.mp hm))

theorem Inv.merges (hs : Relation.ReflTransGen (MergeStep barred) s.live live) :
    Inv { s with live := live } ∧ CoveredBy live s.live := by
  induction hs with
  | refl => exact ⟨h, .of_subset fun _ => id⟩
  | tail _ hst ih =>
    obtain ⟨hinv, hc⟩ := ih.1.mergeStep hst
    exact ⟨hinv, fun m hm => hc.covers (ih.2 m hm)⟩

theorem Inv.coalesce :
    ∃ queue, coalescePendingQueue s.live s.draining = some queue ∧ Inv { s with live := queue } ∧
      CoveredBy queue s.live ∧ Relation.ReflTransGen
        (MergeStep ((barriers s.live s.draining).map QueuedMessage.submissionOrder))
        s.live queue := by
  have hids : (s.live.map QueuedMessage.id).Nodup :=
    (h.entries.sublist (sublist_append_left ..)).id_nodup
  obtain ⟨queue, hrun, hs⟩ := coalescePendingQueue_merges s.draining hids
  obtain ⟨hinv, hc⟩ := h.merges hs
  exact ⟨queue, hrun, hinv, hc, hs⟩

theorem Inv.accept (r : Request) (hf : ∀ m ∈ s.live ++ s.draining, m.matchesSubmission r.id = false)
    (hr : ∀ drain ∈ s.drains, drain.guarded = false →
      ∀ m ∈ drain.inHand, m.matchesSubmission r.id = false)
    (ha : Accepts s.live s.draining (r.entry (s.lastOrder + 1)) live) :
    Inv { s with live := live, lastOrder := s.lastOrder + 1 } := by
  have hh : ∀ m ∈ s.held, m.matchesSubmission r.id = false := by
    refine forall_mem_append.mpr ⟨fun m hm => hf m (mem_append_left _ hm), fun m hm => ?_⟩
    obtain ⟨g, hg, hm⟩ := mem_flatMap.mp hm
    cases hgu : g.guarded with
    | false => exact hr g hg hgu m hm
    | true =>
      obtain ⟨-, d, hd, hal⟩ := h.overlay.copies g hg hgu m hm
      exact (hal.matches _).symm.trans (hf d (mem_append_right _ hd))
  -- the entry is put into the queue, and maybe merged there
  have hin : Inv { s with
      live := r.entry (s.lastOrder + 1) :: s.live, lastOrder := s.lastOrder + 1 } := by
    refine ⟨h.entries.fresh r hh, h.overlay.setLive _ ?_ ?_, h.expectation⟩
    · exact .of_subset (subset_cons_self ..)
    · refine forall_mem_cons.mpr ⟨fun id hid => ?_, KeepsIds.refl s⟩
      rw [(entry_matches r _ id).mp hid]
      exact .inr fun d hd => hf d (mem_append_right _ hd)
  cases ha with
  | insert hs =>
    refine hin.permLive ?_
    rw [hs]
    exact perm_middle.symm
  | @merge e older newer hs hme _ _ =>
    have hp : (r.entry (s.lastOrder + 1) :: s.live).Perm
        (e :: r.entry (s.lastOrder + 1) :: (older ++ newer)) := by
      rw [hs]
      exact (perm_middle.cons _).trans (.swap ..)
    exact ((hin.permLive hp).mergeLive rfl hme).1.permLive perm_middle.symm

end Live

variable {rest : List QueuedMessage} {first : QueuedMessage}

section Drains

variable {back : List QueuedMessage} {m' d : QueuedMessage}

/-- Entries go from the hands of a drain to the queue, as they are or as one new entry. -/
theorem Overlay.giveBack (h : Overlay s) (hdrains : s.drains = drain :: drains)
    (hp : drain.inHand.Perm (back ++ kept))
    (hc : CoveredBy live (s.live ++ back)) (hids : KeepsIds s live) :
    Overlay { s with live := live, drains := { drain with inHand := kept } :: drains } := by
  refine h.rehand hdrains (fun m hm => hc m (mem_append_left _ hm)) (fun m hm => ?_) hids
    (fun m hm => ⟨m, hp.mem_iff.mpr (mem_append_right _ hm), .refl m⟩)
  rcases mem_append.mp (hp.mem_iff.mp hm) with hm | hm
  · exact .inl (hc m (mem_append_right _ hm))
  · exact .inr ⟨m, hm, .refl m⟩

theorem Overlay.setDraining (h : Overlay s) (g : QueuedMessage → QueuedMessage)
    (ha : ∀ d, Alike (g d) d) (hpe : ∀ d, d.persisted = true → (g d).persisted = true)
    (ho : ∀ d, (g d).correlationOrderKnown = d.correlationOrderKnown) :
    Overlay { s with draining := s.draining.map g } := by
  have hco : ∀ m d, Covers m d → Covers m (g d) := fun m d hc =>
    hc.trans (ha d).covers
  refine ⟨?_, ?_, ?_, ?_, ?_, h.separate, ?_⟩
  · exact forall_mem_map.mpr fun d hd =>
      (h.listed d hd).alike (ha d) (hpe d) (ho d)
  · rw [pairwise_map]
    exact h.apart.imp fun hd => (ha _).distinct ((ha _).distinct hd.symm).symm
  · refine forall_mem_map.mpr fun d hd => ?_
    rcases h.carried d hd with ⟨m, hm, hc⟩ | ⟨k, hk, hg, m, hm, hd⟩ | ⟨hf, hfr⟩
    · exact .inl ⟨m, hm, hco m d hc⟩
    · exact .inr (.inl ⟨k, hk, hg, m, hm, (ha d).trans hd⟩)
    · exact .inr (.inr ⟨hf, fun m hm => ((ha d).distinct (hfr m hm).symm).symm⟩)
  · intro k hk hg m hm
    obtain ⟨hid, d, hd, hdm⟩ := h.copies k hk hg m hm
    exact ⟨hid, g d, mem_map_of_mem hd, (ha d).trans hdm⟩
  · intro k hk hg id hid
    obtain ⟨d, hd, rfl⟩ := h.registered k hk hg id hid
    exact ⟨g d, mem_map_of_mem hd, (ha d).id⟩
  · refine forall_mem_map.mpr fun d hd row hrow sub hsub hmem => ?_
    rw [(ha d).submissions] at hsub
    rcases h.stamped d hd row hrow sub hsub hmem with ⟨m, hm, hc⟩ | hp | ⟨row', hr', hid⟩
    · exact .inl ⟨m, hm, hco m d hc⟩
    · exact .inr (.inl (hpe d hp))
    · exact .inr (.inr ⟨row', hr', hid.trans (ha d).id.symm⟩)

theorem Overlay.replace (h : Overlay s) (hdrains : s.drains = drain :: drains)
    (hp : drain.inHand.Perm (m :: rest)) (ha : Alike m' m) :
    Overlay { s with drains := { drain with inHand := m' :: rest } :: drains } := by
  have hs : ∀ e ∈ m' :: rest, ∃ e' ∈ drain.inHand, Alike e e' := by
    refine forall_mem_cons.mpr ⟨⟨m, hp.mem_iff.mpr (by simp), ha⟩, fun e he => ?_⟩
    exact ⟨e, hp.mem_iff.mpr (by simp [he]), .refl e⟩
  have hs' : ∀ e ∈ drain.inHand, ∃ e' ∈ m' :: rest, Alike e e' := by
    intro e he
    rcases mem_cons.mp (hp.mem_iff.mp he) with rfl | he
    · exact ⟨m', mem_cons_self .., ha.symm⟩
    · exact ⟨e, mem_cons_of_mem _ he, .refl e⟩
  exact h.rehand hdrains (.of_subset fun _ => id) (fun e he => .inr (hs' e he)) (.refl s) hs

/-- A row is added: what it has in common with a listed entry is known to be stored. -/
theorem Overlay.addRow (h : Overlay s) (row : Row)
    (hrow : ∀ d ∈ s.draining, ∀ sub ∈ d.submissions, sub ∈ row.submissions →
      (∃ m ∈ s.live, Covers m d) ∨ row.queuedMessageId = d.id) :
    Overlay { s with transcript := s.transcript ++ [row] } := by
  refine { h with stamped := fun d hd old hold sub hsub hmem => ?_ }
  rcases mem_append.mp hold with hold | hold
  · rcases h.stamped d hd old hold sub hsub hmem with hc | hp | ⟨row', hr', hid⟩
    · exact .inl hc
    · exact .inr (.inl hp)
    · exact .inr (.inr ⟨row', mem_append_left _ hr', hid⟩)
  · rw [mem_singleton.mp hold] at hmem
    rcases hrow d hd sub hsub hmem with hc | hid
    · exact .inl hc
    · exact .inr (.inr ⟨row, mem_append_right _ (mem_singleton.mpr rfl), hid⟩)

theorem mem_retire (h : d ∈ s.retire drain) :
    d ∈ s.draining ∧ (drain.guarded = true → s.frozen = false → d.id ∉ drain.ids) := by
  unfold System.retire at h
  split at h
  · obtain ⟨hd, hid⟩ := mem_filter.mp h
    exact ⟨hd, fun _ _ => of_decide_eq_true hid⟩
  · rename_i hnot
    refine ⟨h, fun hg hf => ?_⟩
    rw [hg, hf] at hnot
    exact absurd rfl hnot

theorem mem_retire_of (hd : d ∈ s.draining) (hid : drain.guarded = true → d.id ∉ drain.ids) :
    d ∈ s.retire drain := by
  unfold System.retire
  split
  · rename_i hg
    exact mem_filter.mpr ⟨hd, decide_eq_true (hid (Bool.and_eq_true_iff.mp hg).1)⟩
  · exact hd

variable (h : Inv s)
include h

theorem Inv.permDrains (hp : s.drains.Perm drains) : Inv { s with drains := drains } := by
  have hh : s.held.Perm (s.live ++ drains.flatMap Drain.inHand) :=
    (hp.flatMap_right _).append_left _
  refine ⟨h.entries.perm hh, h.overlay.moved s.lastOrder (.of_subset fun _ => id)
    (fun g hg m hm => .inr ⟨g, hp.mem_iff.mp hg, id, m, hm, .refl m⟩) (.refl s)
    (fun g hg m hm => ⟨g, hp.mem_iff.mpr hg, id, fun _ => id, m, hm, .refl m⟩)
    (fun g hg hgu _ hid => ⟨g, hp.mem_iff.mpr hg, hgu, hid⟩)
    (h.overlay.separate.perm hp fun h hg' hg id hid hmem => h hg hg' id hmem hid), h.expectation⟩

theorem Inv.pop {popped : List QueuedMessage} (hpe : s.live.Perm (popped ++ live))
    (hfr : s.frozen = false) (hfre : ∀ m ∈ popped, ∀ d ∈ s.draining, sameEntry m d = false) :
    Inv { s with
      live := live
      draining := s.draining ++ registered popped
      drains := ⟨popped.map QueuedMessage.id, true, popped⟩ :: s.drains } := by
  have hhe : s.held.Perm (live ++ (popped ++ s.drains.flatMap Drain.inHand)) := by
    refine (hpe.append_right _).trans ?_
    rw [append_assoc]
    exact perm_append_comm_assoc ..
  have hpo : ∀ m ∈ popped, m ∈ s.live := fun m hm => hpe.mem_iff.mpr (by simp [hm])
  have hcov : ∀ d ∈ s.draining, ∀ m ∈ popped, m.matchesSubmission d.id = false := by
    intro d hd m hm
    have := hfre m hm d hd
    rw [sameEntry, Bool.or_eq_false_iff] at this
    exact this.1
  have hli : ∀ d ∈ s.draining, (∃ m ∈ s.live, Covers m d) → ∃ m ∈ live, Covers m d := by
    rintro d hd ⟨m, hm, hco⟩
    rcases mem_append.mp (hpe.mem_iff.mp hm) with hm | hm
    · have := hcov d hd m hm
      rw [hco.ids d.id (matches_self d)] at this
      cases this
    · exact ⟨m, hm, hco⟩
  have hcop : ∀ m ∈ popped, Alike { m with provisional := !m.persisted } m :=
    fun _ _ => ⟨rfl, rfl, rfl, rfl, rfl⟩
  have hkn : ∀ m ∈ popped, Known m := fun m hm => h.entries.known m (mem_append_left _ (hpo m hm))
  refine ⟨h.entries.perm hhe, ⟨?_, ?_, ?_, ?_, ?_, ?_, ?_⟩, h.expectation⟩
  · refine forall_mem_append.mpr ⟨h.overlay.listed, forall_mem_map.mpr fun m hm => ?_⟩
    exact (hkn m hm).alike (hcop m hm) (fun hp => hp) rfl
  · refine pairwise_append.mpr ⟨h.overlay.apart, ?_, ?_⟩
    · rw [registered, pairwise_map]
      have hdi := (h.entries.perm hhe).distinct
      have hsub : popped.Sublist (live ++ (popped ++ s.drains.flatMap Drain.inHand)) :=
        (sublist_append_left ..).trans (sublist_append_right ..)
      exact (hdi.sublist hsub).imp fun hd => hd
    · -- the carrier of a listed entry is no entry that was popped
      refine fun d hd => forall_mem_map.mpr fun m hm => ?_
      suffices Distinct d m from this
      intro id hid
      rw [Bool.eq_false_iff]
      intro hid'
      have hmh : m ∈ s.held := mem_append_left _ (hpo m hm)
      have hcar : ∃ e ∈ s.held, Covers e d := by
        rcases h.overlay.carried d hd with ⟨e, he, hco⟩ | ⟨g, hg, -, e, he, hal⟩ | ⟨hf, -⟩
        · exact ⟨e, mem_append_left _ he, hco⟩
        · exact ⟨e, mem_held_of_inHand hg he, hal.covers⟩
        · rw [hfr] at hf
          cases hf
      obtain ⟨e, he, hco⟩ := hcar
      have heq := h.entries.eq_of_matches he hmh (hco.ids id hid) hid'
      have := hcov d hd m hm
      rw [← heq, hco.ids d.id (matches_self d)] at this
      cases this
  · refine forall_mem_append.mpr ⟨fun d hd => ?_, forall_mem_map.mpr fun m hm => ?_⟩
    · rcases h.overlay.carried d hd with hca | ⟨g, hg, hca⟩ | ⟨hf, -⟩
      · exact .inl (hli d hd hca)
      · exact .inr (.inl ⟨g, mem_cons_of_mem _ hg, hca⟩)
      · rw [hfr] at hf
        cases hf
    · exact .inr (.inl ⟨_, mem_cons_self .., .inl rfl, m, hm, hcop m hm⟩)
  · refine forall_mem_cons.mpr ⟨fun _ m hm => ?_, fun g hg hgu m hm => ?_⟩
    · exact ⟨mem_map_of_mem hm, _, mem_append_right _ (mem_map_of_mem hm), hcop m hm⟩
    · obtain ⟨hid, d, hd, hal⟩ := h.overlay.copies g hg hgu m hm
      exact ⟨hid, d, mem_append_left _ hd, hal⟩
  · refine forall_mem_cons.mpr ⟨fun _ => forall_mem_map.mpr fun m hm => ?_,
      fun g hg hgu id hid => ?_⟩
    · exact ⟨_, mem_append_right _ (mem_map_of_mem hm), rfl⟩
    · obtain ⟨d, hd, hid⟩ := h.overlay.registered g hg hgu id hid
      exact ⟨d, mem_append_left _ hd, hid⟩
  · refine pairwise_cons.mpr ⟨fun g hg _ hgu => forall_mem_map.mpr fun m hm hmem =>
      ?_, h.overlay.separate⟩
    obtain ⟨d, hd, hdid⟩ := h.overlay.registered g hg hgu m.id hmem
    have := hcov d hd m hm
    rw [hdid, matches_self] at this
    cases this
  · refine forall_mem_append.mpr ⟨fun d hd row hrow sub hsub hmem => ?_,
      forall_mem_map.mpr fun m hm row hrow sub hsub hmem => ?_⟩
    · exact (h.overlay.stamped d hd row hrow sub hsub hmem).imp_left (hli d hd)
    · refine .inr (.inl (Bool.not_eq_false _ ▸ fun hp => ?_))
      exact h.entries.unstored m (mem_append_left _ (hpo m hm)) hp sub hsub row hrow hmem

/-- Whoever has text of an entry in hand is a copy of it, or is covered by a live entry. -/
theorem Inv.copy_of_submission {sub : Submission} (hg : drain ∈ s.drains)
    (hm : m ∈ drain.inHand) (hd : d ∈ s.draining) (hsub : sub ∈ d.submissions)
    (hmem : sub ∈ m.submissions) : (∃ e ∈ s.live, Covers e d) ∨ m.id = d.id := by
  have hmh := mem_held_of_inHand hg hm
  rcases h.overlay.carried d hd with hc | ⟨k, hk, -, e, he, hde⟩ | ⟨-, hf⟩
  · exact .inl hc
  · have hs' : sub ∈ e.submissions := hde.submissions ▸ hsub
    have heq := h.entries.eq_of_submission (mem_held_of_inHand hk he) hmh hs' hmem
    exact .inr (heq ▸ hde.id.symm)
  · exact absurd hsub ((hf m hmh).submissions (h.entries.known m hmh) (h.overlay.listed d hd) hmem)

theorem Inv.fold {folded : Drain} (hdrains : s.drains = drain :: folded :: drains)
    (hdrain : drain.guarded = true) (hf : folded.guarded = true) :
    Inv { s with
      drains := ⟨drain.ids ++ folded.ids, true, drain.inHand ++ folded.inHand⟩ :: drains } := by
  have hh : s.held =
      s.live ++ ((drain.inHand ++ folded.inHand) ++ drains.flatMap Drain.inHand) := by
    rw [System.held, hdrains, flatMap_cons, flatMap_cons, append_assoc]
  have hs := h.overlay.separate
  rw [hdrains] at hs
  obtain ⟨hfi, hr⟩ := pairwise_cons.mp hs
  obtain ⟨hse, hr⟩ := pairwise_cons.mp hr
  refine ⟨h.entries.perm (.of_eq hh), h.overlay.moved s.lastOrder (.of_subset fun _ =>
    id) ?_ (.refl s) ?_ ?_
    (pairwise_cons.mpr ⟨fun g hg _ hgu => ?_, hr⟩), h.expectation⟩
  all_goals simp only [hdrains, mem_cons, forall_eq_or_imp, exists_eq_or_imp, forall_mem_append]
  · refine ⟨fun m hm => .inr (.inl ⟨fun _ => trivial, m, mem_append_left _ hm, .refl m⟩),
      fun m hm => .inr (.inl ⟨fun _ => trivial, m, mem_append_right _ hm, .refl m⟩),
        fun g hg m hm => ?_⟩
    exact .inr (.inr ⟨g, hg, id, m, hm, .refl m⟩)
  · refine ⟨⟨fun m hm => .inl ⟨fun _ => hdrain, fun _ => mem_append_left _, m, hm, .refl m⟩,
      fun m hm => .inr (.inl ⟨fun _ => hf, fun _ => mem_append_right _, m, hm, .refl m⟩)⟩,
        fun g hg m hm => ?_⟩
    exact .inr (.inr ⟨g, hg, id, fun _ => id, m, hm, .refl m⟩)
  · exact ⟨fun _ => ⟨fun _ hid => .inl ⟨hdrain, hid⟩, fun _ hid => .inr (.inl ⟨hf, hid⟩)⟩,
      fun g hg hgu _ hid => .inr (.inr ⟨g, hg, hgu, hid⟩)⟩
  · exact ⟨fun id hid => hfi g (mem_cons_of_mem _ hg) hdrain hgu id hid,
      fun id hid => hse g hg hf hgu id hid⟩

variable (hdrains : s.drains = drain :: drains)
include hdrains

theorem Inv.giveBack (hp : drain.inHand.Perm (back ++ kept)) :
    Inv { s with live := back ++ s.live, drains := { drain with inHand := kept } :: drains } := by
  have hh : s.held.Perm ((back ++ s.live) ++ (kept ++ drains.flatMap Drain.inHand)) := by
    rw [System.held, hdrains, flatMap_cons]
    refine ((hp.append_right _).append_left _).trans ?_
    rw [append_assoc, append_assoc]
    exact perm_append_comm_assoc ..
  exact ⟨h.entries.perm hh, h.overlay.giveBack hdrains hp (.of_subset perm_append_comm.subset)
    fun m hm id hid => .inl ⟨m, hh.mem_iff.mpr (mem_append_left _ hm), hid⟩, h.expectation⟩

theorem Inv.permInHand (hp : drain.inHand.Perm kept) :
    Inv { s with drains := { drain with inHand := kept } :: drains } := by
  have hn : drain.inHand.Perm ([] ++ kept) := hp
  exact h.giveBack hdrains hn

theorem Inv.giveBackNew (hin : drain.inHand = first :: rest) (r : Retry)
    (hf : ∀ m ∈ s.held ++ s.draining, m.matchesSubmission r.id = false)
    (hp : rest ≠ [] → ∀ m ∈ first :: rest, m.recoverySources = [])
    (hs : rest ≠ [] → ∀ m ∈ first :: rest, m.persisted = true) : Inv { s with
      live := r.entry first rest :: s.live
      drains := { drain with inHand := [] } :: drains } := by
  have hh : s.held.Perm ((first :: rest) ++ (s.live ++ drains.flatMap Drain.inHand)) :=
    hin ▸ held_perm hdrains
  have hen := h.entries.perm hh
  have ht := hen.sublist (sublist_append_left (first :: rest) _)
  have hma := retry_matches r ht.known hp ht.id_nodup
  refine ⟨?_, ?_, h.expectation⟩
  · refine hen.retry r (fun m hm => ?_) hp hs
    exact hf m (mem_append_left _ (hh.mem_iff.mpr hm))
  have hpe : drain.inHand.Perm ((first :: rest) ++ []) := by rw [hin, append_nil]
  refine h.overlay.giveBack hdrains hpe ?_ ?_
  · refine forall_mem_append.mpr ⟨fun m hm => ⟨m, mem_cons_of_mem _ hm, .refl m⟩, fun m hm => ?_⟩
    refine ⟨_, mem_cons_self .., fun id hid => (hma id).mpr (.inr ⟨m, hm, hid⟩), ?_⟩
    exact fun sub hsub => mem_flatMap.mpr ⟨m, hm, hsub⟩
  · refine forall_mem_cons.mpr ⟨fun id hid => ?_, KeepsIds.refl s⟩
    rcases (hma id).mp hid with rfl | ⟨e, he, hid⟩
    · exact .inr fun d hd => hf d (mem_append_right _ hd)
    · exact .inl ⟨e, hh.mem_iff.mpr (mem_append_left _ he), hid⟩

theorem Inv.drop : Inv { s with
      draining := s.retire drain
      drains := { drain with guarded := false } :: drains } := by
  have hhe : s.held = s.live ++ (drain.inHand ++ drains.flatMap Drain.inHand) := by
    rw [System.held, hdrains, flatMap_cons]
  have hen := h.entries
  rw [hhe] at hen
  have hse := h.overlay.separate
  rw [hdrains] at hse
  obtain ⟨hfi, hre⟩ := pairwise_cons.mp hse
  have hsub : ∀ d ∈ s.retire drain, d ∈ s.draining := fun d hd => (mem_retire hd).1
  refine ⟨hen, ⟨fun d hd => h.overlay.listed d (hsub d hd), ?_, fun d hd => ?_, ?_, ?_, ?_,
    fun d hd => h.overlay.stamped d (hsub d hd)⟩, h.expectation⟩
  · unfold System.retire
    split
    · exact h.overlay.apart.sublist filter_sublist
    · exact h.overlay.apart
  · obtain ⟨hd, hgo⟩ := mem_retire hd
    rcases h.overlay.carried d hd with hca | ⟨g, hg, hgu, m, hm, hal⟩ | ⟨hfr, hfre⟩
    · exact .inl hca
    · rw [hdrains] at hg
      rcases mem_cons.mp hg with rfl | hg
      · -- its own copies stay only in a frozen list
        have hfr : s.frozen = true := by
          rcases hgu with hgu | hfr
          · by_contra hfr
            have hid := (h.overlay.copies g (by simp [hdrains]) hgu m hm).1
            exact hgo hgu (Bool.eq_false_iff.mpr hfr) (hal.id ▸ hid)
          · exact hfr
        exact .inr (.inl ⟨_, mem_cons_self .., .inr hfr, m, hm, hal⟩)
      · exact .inr (.inl ⟨g, mem_cons_of_mem _ hg, hgu, m, hm, hal⟩)
    · refine .inr (.inr ⟨hfr, ?_⟩)
      rwa [hhe] at hfre
  · refine forall_mem_cons.mpr ⟨nofun, fun g hg hgu m hm => ?_⟩
    obtain ⟨hid, d, hd, hal⟩ := h.overlay.copies g (by simp [hdrains, hg]) hgu m hm
    refine ⟨hid, d, mem_retire_of hd fun hdrain hmem => ?_, hal⟩
    exact hfi g hg hdrain hgu d.id hmem (hal.id ▸ hid)
  · refine forall_mem_cons.mpr ⟨nofun, fun g hg hgu id hid => ?_⟩
    obtain ⟨d, hd, rfl⟩ := h.overlay.registered g (by simp [hdrains, hg]) hgu id hid
    exact ⟨d, mem_retire_of hd fun hdrain hmem => hfi g hg hdrain hgu d.id hmem hid, rfl⟩
  · exact pairwise_cons.mpr ⟨nofun, hre⟩

/-- A drain without a guard is gone; what the frozen list still has of it is left there. -/
theorem Inv.forget (hgu : drain.guarded = false) : Inv { s with drains := drains } := by
  have hh := held_perm hdrains
  have hen := h.entries.perm hh
  have hs := h.overlay.separate
  rw [hdrains] at hs
  refine ⟨hen.sublist (sublist_append_right ..), { h.overlay with
    carried := fun d hd => ?_
    copies := fun g hg => h.overlay.copies g (by simp [hdrains, hg])
    registered := fun g hg => h.overlay.registered g (by simp [hdrains, hg])
    separate := (pairwise_cons.mp hs).2 }, h.expectation⟩
  rcases h.overlay.carried d hd with hc | ⟨g, hg, hk, m, hm, ha⟩ | ⟨hf, hfr⟩
  · exact .inl hc
  · rw [hdrains] at hg
    rcases mem_cons.mp hg with rfl | hg
    · refine .inr (.inr ⟨hk.resolve_left (by simp [hgu]), fun e he => ?_⟩)
      exact (ha.distinct ((pairwise_append.mp hen.distinct).2.2 m hm e he)).symm
    · exact .inr (.inl ⟨g, hg, hk, m, hm, ha⟩)
  · refine .inr (.inr ⟨hf, fun e he => hfr e (hh.mem_iff.mpr ?_)⟩)
    exact mem_append_right _ he

theorem Inv.leave : Inv { s with draining := s.retire drain, drains := drains } :=
  (h.drop hdrains).forget rfl rfl

theorem Inv.entries_cons (hp : drain.inHand.Perm (m :: rest)) : Entries s.lastOrder s.transcript
      (m :: (s.live ++ (rest ++ drains.flatMap Drain.inHand))) := by
  refine h.entries.perm ((held_perm hdrains).trans ((hp.append_right _).trans ?_))
  exact (perm_append_comm_assoc ..).cons m

/-- The entry of an id in the hands of the first drain is changed, but not what it holds. -/
theorem Inv.annotate (hper : drain.inHand.Perm (m :: rest)) (ha : Alike m' m)
    (hpe : m'.persisted = m.persisted) (ho : m'.correlationOrderKnown = m.correlationOrderKnown) :
    Inv { s with drains := { drain with inHand := m' :: rest } :: drains } := by
  have he := h.entries_cons hdrains hper
  have hm' := (he.known m (by simp)).alike ha (fun hp => hpe.trans hp) ho
  exact ⟨(he.replace hm' ha hpe).perm perm_middle.symm, h.overlay.replace hdrains hper ha,
    h.expectation⟩

/-- The row of an entry in the hands of the first drain is stored, and the drain knows. -/
theorem Inv.append (hpe : drain.inHand.Perm (m :: rest)) (hm : m.persisted = false)
    (turnId : String) :
    Inv { s with
      transcript := s.transcript ++ [⟨m.id, turnId, m.submissions⟩]
      draining := s.commitQueueHistory m.id
      drains := { drain with inHand := { m with persisted := true } :: rest } :: drains } := by
  have he := (h.entries_cons hdrains hpe).store hm m.id turnId
  refine ⟨he.perm perm_middle.symm, ?_, h.expectation⟩
  have hrow := h.overlay.addRow ⟨m.id, turnId, m.submissions⟩ fun d hd sub hsub hmem =>
    h.copy_of_submission (by simp [hdrains]) (hpe.mem_iff.mpr (by simp)) hd hsub hmem
  have hma := hrow.setDraining
    (fun d => if d.matchesSubmission m.id then { d with provisional := false, persisted := true }
      else d)
    (by intro d; split <;> exact ⟨rfl, rfl, rfl, rfl, rfl⟩)
    (by intro d hp; split <;> first | rfl | exact hp) (by intro d; split <;> rfl)
  exact hma.replace hdrains hpe ⟨rfl, rfl, rfl, rfl, rfl⟩

theorem Inv.appendUntold (hin : m ∈ drain.inHand) (hm : m.persisted = false) (turnId : String) :
    Inv { s with
      transcript := s.transcript ++ [⟨m.id, turnId, m.submissions⟩]
      draining := s.retire drain
      drains := drains } := by
  have hg := h.leave hdrains
  obtain ⟨l₁, l₂, hs⟩ := append_of_mem hin
  have ha := (h.entries_cons hdrains (hs ▸ perm_middle)).addRow hm m.id turnId
  refine ⟨ha.sublist ((sublist_append_right ..).append_left _), ?_, h.expectation⟩
  refine hg.overlay.addRow ⟨m.id, turnId, m.submissions⟩ fun d hd sub hsub hmem => ?_
  exact h.copy_of_submission (by simp [hdrains]) hin (mem_retire hd).1 hsub hmem

end Drains

/-- Entries with different ids, some of which are merged. -/
structure Merged (before after : List QueuedMessage) : Prop where
  ids : (before.map QueuedMessage.id).Nodup
  steps : ∃ barred, Relation.ReflTransGen (MergeStep barred) before after

theorem Merged.submissions_perm {before after : List QueuedMessage} (h : Merged before after) :
    (after.flatMap QueuedMessage.submissions).Perm (before.flatMap QueuedMessage.submissions) := by
  obtain ⟨barred, hs⟩ := h.steps
  exact submissions_perm_of_merges h.ids hs

/-- What a step does to the queue, the hands, the draining list and the transcript. -/
inductive Change (s : System) (l : Label) : System → Prop
  | idle (order : ℕ) {frozen : Bool} (hfrozen : s.frozen = true → frozen = true) :
      Change s l { s with lastOrder := order, frozen := frozen }
  | accepted {r : Request} {live : List QueuedMessage} (hl : l = .enqueue r)
      (haccepts : Accepts s.live s.draining (r.entry (s.lastOrder + 1)) live) :
      Change s l { s with live := live, lastOrder := s.lastOrder + 1 }
  | popped {popped live : List QueuedMessage} (hfrozen : s.frozen = false)
      (hperm : s.live.Perm (popped ++ live)) :
      Change s l { s with
        live := live
        draining := s.draining ++ registered popped
        drains := s.drains ++ [⟨popped.map QueuedMessage.id, true, popped⟩] }
  | annotated {d : ℕ} {drain : Drain} (hdrain : s.drains[d]? = some drain) (id : String)
      (a : Annotation) : Change s l (s.updateInHand d drain id a.on)
  | stored {d : ℕ} {drain : Drain} (hdrain : s.drains[d]? = some drain) (id : String) (row : Row) :
      Change s l ({ s with
        transcript := s.transcript ++ [row]
        draining :=
          s.commitQueueHistory id }.updateInHand d drain id ({ · with persisted := true }))
  | handedBack {d : ℕ} {drain : Drain} {back kept queue : List QueuedMessage}
      (hdrain : s.drains[d]? = some drain) (hperm : drain.inHand.Perm (back ++ kept))
      (hmerged : Merged (back ++ s.live) queue) :
      Change s l { s with live := queue, drains := s.drains.set d { drain with inHand := kept } }
  | retried {d : ℕ} {drain : Drain} {first : QueuedMessage} {rest queue : List QueuedMessage}
      (hdrain : s.drains[d]? = some drain) (hinHand : drain.inHand = first :: rest) {r : Retry}
      (hauthor : liftFromPrincipalId r.messageMetadata = liftFromPrincipalId first.messageMetadata)
      (hstored : rest ≠ [] → ∀ m ∈ first :: rest, m.persisted = true)
      (hmerged : Merged ([r.entry first rest] ++ s.live) queue) :
      Change s l { s with live := queue, drains := s.drains.set d { drain with inHand := [] } }
  | dropped {d : ℕ} {drain : Drain} (hdrain : s.drains[d]? = some drain) :
      Change s l { s with
        draining := s.retire drain
        drains := s.drains.set d { drain with guarded := false } }
  | left (d : ℕ) (drain : Drain) {transcript : List Row} (hrows : s.transcript <+: transcript) :
      Change s l { s with
        transcript := transcript
        draining := s.retire drain
        drains := s.drains.eraseIdx d }
  | folded {d other : ℕ} {drain folded : Drain} (hdrain : s.drains[d]? = some drain)
      (hfolded : (s.drains.eraseIdx d)[other]? = some folded) :
      Change s l { s with
        drains := (s.drains.eraseIdx d).set other
          ⟨drain.ids ++ folded.ids, true, drain.inHand ++ folded.inHand⟩ }

section Step

variable {d : ℕ} {t : System}

theorem System.enqueue_cases (s : System) (r : Request) :
    s.enqueue r = s ∨ (∀ m ∈ s.live ++ s.draining, m.matchesSubmission r.id = false) ∧
      ∃ live, Accepts s.live s.draining (r.entry (s.lastOrder + 1)) live ∧
        s.enqueue r = { s with live := live, lastOrder := s.lastOrder + 1 } := by
  unfold System.enqueue
  by_cases hh : ∃ m ∈ s.live ++ s.draining, m.matchesSubmission r.id = true
  · obtain ⟨hq, ho, -⟩ := enqueue_held s.lastOrder r hh
    left
    simp only [hq, ho]
  · have hf : ∀ m ∈ s.live ++ s.draining, m.matchesSubmission r.id = false := by
      intro m hm
      exact Bool.eq_false_iff.mpr fun hma => hh ⟨m, hm, hma⟩
    obtain ⟨ha, ho, -⟩ := enqueue_fresh s.lastOrder r hf
    exact .inr ⟨hf, _, ha, by simp only [ho]⟩

variable (h : Inv s)
include h

theorem Inv.live_nodup : (s.live.map QueuedMessage.id).Nodup :=
  (h.entries.sublist (sublist_append_left ..)).id_nodup

theorem Inv.inHand_nodup (hdrain : drain ∈ s.drains) :
    (drain.inHand.map QueuedMessage.id).Nodup := by
  refine (h.entries.sublist (.trans ?_ (sublist_append_right ..))).id_nodup
  exact sublist_flatten_of_mem (mem_map_of_mem hdrain)

/-- `requeue_front` of an entry that is already counted among the live ones. -/
theorem Inv.requeueFront (hl : s.live = m :: live) :
    ∃ queue, (requeueFront live s.draining m).map Prod.fst = some queue ∧
      Inv { s with live := queue } ∧ Merged s.live queue := by
  obtain ⟨queue, hrun, hinv, hc, hs⟩ := h.coalesce
  refine ⟨queue, requeueFront_eq_some (hl ▸ hrun) ?_, hinv, h.live_nodup, _, hs⟩
  obtain ⟨m', hm', hco⟩ := hc m (by simp [hl])
  exact ⟨m', hm', hco.ids m.id (matches_self m)⟩

section

variable (hdrain : s.drains[d]? = some drain)
include hdrain

theorem Inv.front : ∃ before after, Inv { s with drains := drain :: (before ++ after) } ∧
      (∀ x, s.drains.set d x = before ++ x :: after) ∧ s.drains.eraseIdx d = before ++ after ∧
      s.held.Perm (s.live ++ (drain :: (before ++ after)).flatMap Drain.inHand) := by
  obtain ⟨before, after, hs, hset, he, -⟩ := split_at hdrain
  have hp : s.drains.Perm (drain :: (before ++ after)) := hs ▸ perm_middle
  exact ⟨before, after, h.permDrains hp, hset, he, (hp.flatMap_right _).append_left _⟩

theorem Inv.giveBackAt {back : List QueuedMessage} (hp : drain.inHand.Perm (back ++ kept)) :
    Inv { s with
      live := back ++ s.live
      drains := s.drains.set d { drain with inHand := kept } } := by
  obtain ⟨before, after, hf, hset, -⟩ := h.front hdrain
  rw [hset]
  exact (hf.giveBack rfl hp).permDrains perm_middle.symm

theorem Inv.handBackBatch_run (chosen : String → Bool) :
    ∃ queue t, s.handBackBatch d chosen = some t ∧ t = { s with
        live := queue
        drains :=
          s.drains.set d { drain with inHand := drain.inHand.filter fun m => !chosen m.id } } ∧
            Inv t ∧ Merged ((drain.inHand.filter fun m => chosen m.id) ++ s.live) queue := by
  have hb := h.giveBackAt hdrain (filter_append_perm (fun m => chosen m.id) _).symm
  unfold System.handBackBatch requeueFrontBatch
  rw [hdrain, map_some]
  by_cases hn : (drain.inHand.filter fun m => chosen m.id).isEmpty
  · rw [List.isEmpty_iff.mp hn] at hb ⊢
    exact ⟨s.live, _, rfl, rfl, hb, hb.live_nodup, [], .refl⟩
  · obtain ⟨queue, hrun, hinv, -, hs⟩ := hb.coalesce
    rw [if_neg hn, show coalescePendingQueue _ _ = some queue from hrun]
    exact ⟨queue, _, rfl, rfl, hinv, hb.live_nodup, _, hs⟩

theorem Inv.handBack_run {id : String}
    (hr : removeFirst (·.id = id) drain.inHand = some (m, kept)) :
    ∃ queue t, s.handBack d id = some t ∧
      t = { s with live := queue, drains := s.drains.set d { drain with inHand := kept } } ∧ Inv t ∧
        Merged ([m] ++ s.live) queue := by
  have hp : drain.inHand.Perm ([m] ++ kept) := (removeFirst_spec hr).2
  obtain ⟨queue, hrun, hinv, hm⟩ := (h.giveBackAt hdrain hp).requeueFront rfl
  refine ⟨queue, _, ?_, rfl, hinv, hm⟩
  unfold System.handBack
  rw [hdrain, bind_eq_bind, bind_some, hr, bind_eq_bind, bind_some]
  dsimp only
  rw [show (QueuedMessages.requeueFront s.live s.draining m).map Prod.fst = some queue from hrun]
  rfl

theorem Inv.handBackNew_run {r : Retry} (hst : s.handBackNew d r = some t)
    (hp : 2 ≤ drain.inHand.length → ∀ m ∈ drain.inHand, m.recoverySources = []) :
    ∃ first rest queue, drain.inHand = first :: rest ∧
      liftFromPrincipalId r.messageMetadata = liftFromPrincipalId first.messageMetadata ∧
      (rest ≠ [] → ∀ m ∈ first :: rest, m.persisted = true) ∧
      t = { s with live := queue, drains := s.drains.set d { drain with inHand := [] } } ∧ Inv t ∧
      Merged (r.entry first rest :: s.live) queue := by
  unfold System.handBackNew at hst
  rw [hdrain, bind_eq_bind, bind_some] at hst
  split at hst
  · cases hst
  rename_i first rest hin
  split_ifs at hst with hu ha hs
  have hf : ∀ m ∈ s.held ++ s.draining, m.matchesSubmission r.id = false := by
    intro m hm
    exact Bool.eq_false_iff.mpr (any_eq_false.mp (Bool.eq_false_iff.mpr hu) m hm)
  have hp : rest ≠ [] → ∀ m ∈ first :: rest, m.recoverySources = [] := by
    intro hr
    rw [← hin]
    refine hp ?_
    rw [hin]
    have := length_pos_of_ne_nil hr
    simp only [length_cons]
    omega
  have hs : rest ≠ [] → ∀ m ∈ first :: rest, m.persisted = true := by
    intro hr
    simp only [Bool.and_eq_true, Bool.not_eq_eq_eq_not, Bool.not_true, not_and,
      Bool.not_eq_false, List.all_eq_true] at hs
    exact hs (by simpa using hr)
  obtain ⟨before, after, hfr, hset, -, hh⟩ := h.front hdrain
  have hb :=
    (hfr.giveBackNew rfl hin r (fun m hm => hf m ((hh.append_right _).mem_iff.mpr hm))
      hp hs).permDrains
    perm_middle.symm
  rw [← hset] at hb
  obtain ⟨queue, hrun, hinv, hme⟩ := hb.requeueFront rfl
  rw [show (QueuedMessages.requeueFront s.live s.draining (r.entry first rest)).map Prod.fst =
    some queue from hrun] at hst
  cases hst
  exact ⟨first, rest, queue, hin, not_ne_iff.mp ha, hs, rfl, hinv, hme⟩

theorem Inv.annotateAt (id : String) (a : Annotation) : Inv (s.updateInHand d drain id a.on) := by
  obtain ⟨before, after, hf, hset, -⟩ := h.front hdrain
  unfold System.updateInHand
  rw [hset]
  by_cases hmem : ∃ m ∈ drain.inHand, m.id = id
  · obtain ⟨m, hm, rfl⟩ := hmem
    obtain ⟨rest, hp, hmap⟩ := map_key_perm (h.inHand_nodup (mem_of_getElem? hdrain)) hm
    have hal : Alike (a.on m) m := ⟨rfl, rfl, rfl, rfl, rfl⟩
    have ha := hf.annotate rfl hp hal rfl rfl
    exact (ha.permInHand rfl (hmap a.on).symm).permDrains perm_middle.symm
  · have hs : (drain.inHand.map fun m => if m.id = id then a.on m else m) = drain.inHand := by
      refine map_key_of_notMem fun hid => hmem ?_
      exact mem_map.mp hid
    rw [hs]
    exact hf.permDrains perm_middle.symm

end

/-- A step keeps the invariant, unless it pops what is listed, or submits an id of a running
turn again. -/
theorem Inv.step {l : Label} (hst : next s l = some t) (hun : Undisturbed s l) :
    Inv t ∧ Change s l t := by
  cases l with
  | enqueue r =>
    cases hst
    rcases s.enqueue_cases r with heq | ⟨hfre, live, hac, heq⟩
    · rw [heq]
      exact ⟨h, .idle s.lastOrder id⟩
    · rw [heq]
      exact ⟨h.accept r hfre hun hac, .accepted rfl hac⟩
  | otherAgent =>
    cases hst
    exact ⟨⟨h.entries.later, { h.overlay with }, h.expectation⟩, .idle _ id⟩
  | pop p =>
    simp only [next, System.pop] at hst
    split_ifs at hst with hfro
    obtain ⟨⟨popped, live⟩, hrun, rfl⟩ := map_eq_some_iff.mp hst
    have hfro := Bool.eq_false_iff.mpr hfro
    exact ⟨(h.pop (run_spec hrun).2 hfro (hun _ hrun)).permDrains
      (perm_append_singleton _ s.drains).symm, .popped hfro (run_spec hrun).2⟩
  | annotate d id a =>
    obtain ⟨drain, hdrain, rfl⟩ := map_eq_some_iff.mp hst
    exact ⟨h.annotateAt hdrain id a, .annotated hdrain id a⟩
  | append d id turnId told =>
    obtain ⟨drain, hdrain, hst⟩ := bind_eq_some_iff.mp hst
    obtain ⟨m, hfi, hst⟩ := bind_eq_some_iff.mp hst
    have hid := List.find?_some hfi
    obtain rfl : m.id = id := of_decide_eq_true hid
    have hm := mem_of_find?_eq_some hfi
    obtain ⟨before, after, hfr, hset, her, -⟩ := h.front hdrain
    split_ifs at hst with hpe hto
    · cases hst
      refine ⟨?_, .stored hdrain _ _⟩
      obtain ⟨rest, hper, hmap⟩ := map_key_perm (h.inHand_nodup (mem_of_getElem? hdrain)) hm
      have hsto := hfr.append rfl hper (Bool.eq_false_iff.mpr hpe) turnId
      unfold System.updateInHand
      simp only [hset]
      exact (hsto.permInHand rfl
        (hmap fun m => { m with persisted := true }).symm).permDrains perm_middle.symm
    · obtain ⟨drain', hdr', rfl⟩ := map_eq_some_iff.mp hst
      obtain rfl : drain = drain' := some.inj (hdrain.symm.trans hdr')
      refine ⟨?_, .left d drain (prefix_append ..)⟩
      simp only [her]
      exact hfr.appendUntold rfl hm (Bool.eq_false_iff.mpr hpe) turnId
  | handBackBatch d chosen =>
    obtain ⟨drain, hdrain, -⟩ := map_eq_some_iff.mp hst
    obtain ⟨queue, _, hrun, rfl, hinv, hme⟩ := h.handBackBatch_run hdrain chosen
    cases hrun.symm.trans hst
    exact ⟨hinv, .handedBack hdrain (filter_append_perm _ _).symm hme⟩
  | handBack d id =>
    obtain ⟨drain, hdrain, hres⟩ := bind_eq_some_iff.mp hst
    obtain ⟨⟨m, kept⟩, hre, -⟩ := bind_eq_some_iff.mp hres
    obtain ⟨queue, _, hrun, rfl, hinv, hme⟩ := h.handBack_run hdrain hre
    cases hrun.symm.trans hst
    exact ⟨hinv, .handedBack hdrain (removeFirst_spec hre).2 hme⟩
  | handBackNew d r =>
    obtain ⟨drain, hdrain, -⟩ := bind_eq_some_iff.mp hst
    obtain ⟨first, rest, queue, hin, hau, hsto, rfl, hinv, hme⟩ :=
      h.handBackNew_run hdrain hst (hun drain hdrain)
    exact ⟨hinv, .retried hdrain hin hau hsto hme⟩
  | drop d =>
    obtain ⟨drain, hdrain, rfl⟩ := map_eq_some_iff.mp hst
    obtain ⟨before, after, hfr, hset, -⟩ := h.front hdrain
    refine ⟨?_, .dropped hdrain⟩
    rw [hset]
    exact (hfr.drop rfl).permDrains perm_middle.symm
  | leave d =>
    obtain ⟨drain, hdrain, rfl⟩ := map_eq_some_iff.mp hst
    obtain ⟨before, after, hfr, -, her, -⟩ := h.front hdrain
    refine ⟨?_, .left d drain prefix_rfl⟩
    rw [her]
    exact hfr.leave rfl
  | merge d other =>
    obtain ⟨drain, hdrain, hst⟩ := bind_eq_some_iff.mp hst
    obtain ⟨folded, hfo, hst⟩ := bind_eq_some_iff.mp hst
    split_ifs at hst with hgu
    cases hst
    refine ⟨?_, .folded hdrain hfo⟩
    obtain ⟨hgu, hgu'⟩ := Bool.and_eq_true_iff.mp hgu
    obtain ⟨before, after, hfr, -, her, -⟩ := h.front hdrain
    obtain ⟨before', after', hsp', hset, -, -⟩ := split_at hfo
    rw [hset]
    have hper : (drain :: (before ++ after)).Perm (drain :: folded :: (before' ++ after')) := by
      rw [← her, hsp']
      exact perm_middle.cons _
    exact ((hfr.permDrains hper).fold rfl hgu hgu').permDrains perm_middle.symm
  | freeze =>
    cases hst
    refine ⟨{ h with overlay := { h.overlay with carried := fun d hd => ?_ } },
      .idle _ fun _ => rfl⟩
    rcases h.overlay.carried d hd with hca | ⟨g, hg, -, hca⟩ | ⟨-, hfre⟩
    · exact .inl hca
    · exact .inr (.inl ⟨g, hg, .inr rfl, hca⟩)
    · exact .inr (.inr ⟨rfl, hfre⟩)

end Step

end Intentd.QueueDrains
