import Intentd.FlushOrder

/-!
# Attempts that fail and are made again

Over any number of attempts, with submissions at any point, no text is stored twice, a turn
starts only when all its entries have their row, and a failed attempt leaves its batch in
the queue in order. Merges are the exception to the order, and they go by submission: two
entries of one author may be merged although one of the batch is between them, in the queue
or, once its row is stored and it is still to come back, by submission.
-/
namespace Intentd.FlushTurns
open JsonValues QueuedMessages KeyedLists QueueDrains LabelledRuns List Option

variable {l : QueueDrains.Label}

theorem transcript_extends {s t : System} (h : Change s l t) : s.transcript <+: t.transcript := by
  cases h with
  | stored => exact prefix_append ..
  | left _ _ hr => exact hr
  | _ => exact prefix_rfl

theorem Turn.Complete.mono {turn : Turn} {transcript transcript' : List Row}
    (h : turn.Complete transcript) (hg : transcript <+: transcript') :
    turn.Complete transcript' where
  entries := h.entries
  stored := by
    intro m hm
    obtain ⟨hp, hr⟩ := h.stored m hm
    refine ⟨hp, fun sub hsub => ?_⟩
    obtain ⟨row, hrow, hmem⟩ := hr sub hsub
    exact ⟨row, hg.subset hrow, hmem⟩
  rows := h.rows
  kept := h.kept.trans hg.isInfix

structure Sound (f : Flush) : Prop where
  inv : Inv f.queue
  authored : Everywhere Authored f.queue
  turns : ∀ turn ∈ f.turns, turn.Complete f.queue.transcript

structure FlushInv (f : Flush) : Prop where
  sound : Sound f
  progress : Progress f.queue f.batch f.begun f.phase

section Steps

variable {f g : Flush} {t : System} {drain : Drain} {back : List QueuedMessage}

theorem Sound.step (h : Sound f)
    (hs : QueueDrains.next f.queue l = some t) (hu : Undisturbed f.queue l) :
    Sound { f with queue := t } := by
  obtain ⟨hinv, hc⟩ := h.inv.step hs hu
  exact ⟨hinv, h.authored.step Authored.lasting hc fun r _ => Authored.entry r _,
    fun turn ht => (h.turns turn ht).mono (transcript_extends hc)⟩

theorem MergesNext.of_live_eq (h : g.queue.live = f.queue.live) : MergesNext f g := by
  refine ⟨[], by simp, ?_⟩
  rw [h]
  exact .refl

theorem Attempt.entries (h : Attempt f.queue f.batch drain back) : f.entries = drain.inHand := by
  rw [Flush.entries, h.drains, flatMap_singleton]

variable (h : FlushInv f)
include h

theorem FlushInv.at {phase : Phase} (hp : f.phase = phase) :
    Progress f.queue f.batch f.begun phase :=
  hp ▸ h.progress

theorem FlushInv.handBack (ha : Attempt f.queue f.batch drain back) {chosen : String → Bool}
    (hs : f.queue.handBackBatch 0 chosen = some t) {given kept givenBatch : List QueuedMessage}
    (hg : (drain.inHand.filter fun m => chosen m.id) = given)
    (hk : (drain.inHand.filter fun m => !chosen m.id) = kept)
    (hal : List.Forall₂ Alike given givenBatch) (hsub : givenBatch ⊆ f.batch) :
    Sound { f with queue := t } ∧
      Attempt t f.batch { drain with inHand := kept } (givenBatch ++ back) ∧
      MergesNext f { f with queue := t } := by
  obtain ⟨ha', hst⟩ := ha.handBack h.sound.inv hs hg hk hal hsub
  refine ⟨h.sound.step (l := .handBackBatch 0 chosen) hs trivial, ha', given,
    fun m hm => ⟨m, ?_, .refl m⟩, hst⟩
  rw [ha.entries]
  exact (mem_filter.mp (hg ▸ hm)).1

theorem FlushInv.enqueue (r : Request) : FlushInv { f with queue := f.queue.enqueue r } := by
  have hu : Undisturbed f.queue (.enqueue r) := by
    intro drain hd hg
    rw [h.progress.guarded drain hd] at hg
    cases hg
  refine ⟨h.sound.step (l := .enqueue r) rfl hu, ?_⟩
  exact h.progress.frame rfl (fun _ _ ha => ha.enqueue h.sound.inv r) rfl (fun _ =>
    rfl) (fun hf => hf)

theorem FlushInv.otherAgent :
    FlushInv { f with queue := { f.queue with lastOrder := f.queue.lastOrder + 1 } } := by
  refine ⟨h.sound.step (l := .otherAgent) rfl trivial, ?_⟩
  refine h.progress.frame rfl (fun _ _ ha => ?_) rfl (fun _ => rfl) (fun hf => hf)
  exact { ha with }

theorem FlushInv.freeze : FlushInv { f with queue := { f.queue with frozen := true } } := by
  refine ⟨h.sound.step (l := .freeze) rfl trivial, ?_⟩
  exact h.progress.frame rfl (fun _ _ ha => ha.freeze) rfl (fun _ => rfl) nofun

theorem FlushInv.dequeue {p : Pop} (hst : f.dequeue p = some g) : FlushInv g := by
  unfold Flush.dequeue at hst
  split_ifs at hst with hph
  obtain ⟨⟨popped, live⟩, hrun, hst⟩ := bind_eq_some_iff.mp hst
  dsimp only at hst
  split_ifs at hst with hem
  obtain ⟨queue, hpop, hst⟩ := bind_eq_some_iff.mp hst
  cases hst
  cases h.at (not_not.mp hph) with
  | idle hdra hdr =>
    have hfr : f.queue.frozen = false := by
      by_contra hfr
      simp [System.pop, hfr] at hpop
    have hun : Undisturbed f.queue (.pop p) := by
      intro r _ m _ d hd
      rw [hdr hfr] at hd
      cases hd
    have hso := h.sound.step (l := .pop p) hpop hun
    rw [System.pop, if_neg (by simp [hfr]), hrun, map_some] at hpop
    cases hpop
    refine ⟨{ hso with }, ?_⟩
    have hdi := hso.inv.entries.distinct
    simp only [System.held, hdra, nil_append, flatMap_singleton] at hdi
    have hco : ∀ m : QueuedMessage, Alike { m with provisional := !m.persisted } m :=
      fun _ => ⟨rfl, rfl, rfl, rfl, rfl⟩
    have hat : Attempt { f.queue with
        live := live, draining := f.queue.draining ++ registered popped,
        drains := f.queue.drains ++ [⟨popped.map QueuedMessage.id, true, popped⟩] }
        popped ⟨popped.map QueuedMessage.id, true, popped⟩ [] := by
      refine ⟨by simp [hdra], rfl, ?_, ?_, (pairwise_append.mp hdi).2.1, .popped hdi⟩
      · simp only [hdr hfr, nil_append]
        exact forall_mem_map.mpr fun m hm => mem_map.mpr ⟨m, hm, rfl⟩
      · intro m hm
        exact ⟨_, mem_append_right _ (mem_map_of_mem hm), hco m⟩
    have hall : List.Forall₂ (fun m b => Alike m b ∧ m.persisted = b.persisted) popped popped :=
      forall₂_same.mpr fun m _ => ⟨.refl m, rfl⟩
    have hsto : Storing _ popped _ _ [] popped [] popped :=
      ⟨hat, rfl, rfl, .nil, hall, Nat.le_refl _, by simp⟩
    exact .storing hsto

theorem FlushInv.annotate {id : String} {a : Annotation} (hst : f.annotate id a = some g) :
    FlushInv g ∧ MergesNext f g := by
  unfold Flush.annotate at hst
  split_ifs at hst with hp
  obtain ⟨queue, hq, rfl⟩ := map_eq_some_iff.mp hst
  have hso := h.sound.step (l := .annotate 0 id a) hq trivial
  generalize hz : Phase.storing 0 = phase at hp
  cases h.at hp with
  | @storing _ _ pending _ pendingBatch hs =>
    rw [System.annotate, hs.attempt.get, map_some] at hq
    cases hq
    refine ⟨⟨hso, ?_⟩, .of_live_eq rfl⟩
    rw [hp]
    have hnil := eq_nil_of_length_eq_zero (Phase.storing.inj hz).symm
    subst hnil
    have ha : List.Forall₂ (fun m b => Alike m b ∧ m.persisted = b.persisted)
        (pending.map fun m => if m.id = id then a.on m else m) pendingBatch := by
      refine forall₂_map_left_iff.mpr (hs.pending.imp fun m b hmb => ?_)
      split
      · exact ⟨{ hmb.1 with }, hmb.2⟩
      · exact hmb
    have hin : _ = pending := hs.inHand
    rw [← hin] at ha
    exact .storing { hs with
      attempt := hs.attempt.updateInHand id a.on
      inHand := rfl
      pending := ha }
  | _ => cases hz

theorem FlushInv.store {ok : Bool} (hste : f.store ok = some g) : FlushInv g ∧ MergesNext f g := by
  unfold Flush.store at hste
  split at hste
  case h_2 => cases hste
  rename_i i hph
  cases h.at hph with
  | @storing drain stored pending storedBatch pendingBatch hst =>
    have hen := hst.attempt.entries
    obtain ⟨first, hfi, hste⟩ := bind_eq_some_iff.mp hste
    obtain ⟨m, hm, hste⟩ := bind_eq_some_iff.mp hste
    rw [hen, hst.inHand, List.getElem?_append_right le_rfl,
      Nat.sub_self, ← List.head?_eq_getElem?] at hm
    obtain ⟨pending, rfl⟩ := List.head?_eq_some_iff.mp hm
    obtain ⟨b, pendingBatch, hmb, -, rfl⟩ := forall₂_cons_left_iff.mp hst.pending
    have hle : ∀ x, (stored ++ [x]).length = stored.length + 1 := fun _ => length_append
    split_ifs at hste with hpe hok hfr
    · cases hste
      refine ⟨⟨{ h.sound with }, ?_⟩, .of_live_eq rfl⟩
      exact hle m ▸ .storing (hst.skip hpe)
    · obtain ⟨queue, hqu, hste⟩ := bind_eq_some_iff.mp hste
      cases hste
      rw [hen] at hfi
      obtain ⟨hli, hst'⟩ :=
        hst.append h.sound.inv (Bool.eq_false_iff.mpr hpe) hfi hqu
      have hso := h.sound.step (l := .append 0 m.id first.turnId true) hqu trivial
      refine ⟨⟨{ hso with }, ?_⟩, .of_live_eq hli⟩
      exact hle _ ▸ .storing hst'
    · -- a shutdown has begun: everything goes back at once
      obtain ⟨queue, hqu, hste⟩ := bind_eq_some_iff.mp hste
      cases hste
      obtain ⟨hso, hat, hme⟩ := h.handBack hst.attempt hqu
        (filter_eq_self.mpr fun _ _ => rfl) rfl hst.alike (List.Subset.refl _)
      rw [append_nil] at hat
      exact ⟨⟨{ hso with }, .parked hat⟩, hme⟩
    · obtain ⟨queue, hqu, hste⟩ := bind_eq_some_iff.mp hste
      cases hste
      have hta : f.entries.drop (stored.length + 1) = pending := by
        rw [hen, hst.inHand]
        simp
      rw [hta] at hqu
      have hids := h.sound.inv.inHand_nodup (mem_of_getElem? hst.attempt.get)
      rw [hst.inHand, append_cons] at hids
      obtain ⟨hgi, hke⟩ := filter_keys_right hids
      rw [← append_cons, ← hst.inHand] at hgi hke
      obtain ⟨hmb, hpen⟩ := forall₂_cons.mp hst.pending
      have hsub : pendingBatch ⊆ f.batch := by
        rw [hst.batch_eq]
        exact fun x hx => by simp [hx]
      obtain ⟨hso, hat, hme⟩ :=
        h.handBack hst.attempt hqu hgi hke (hpen.imp fun _ _ hmb => hmb.1) hsub
      rw [append_nil] at hat
      refine ⟨⟨{ hso with }, ?_⟩, hme⟩
      exact .tailBack hat rfl hst.batch_eq (hst.stored.imp fun _ _ hmb => hmb.1) hmb.1

/-- The entry whose append failed goes in front of those after it. -/
theorem FlushInv.handBackFailed (hst : f.handBackFailed = some g) :
    FlushInv g ∧ MergesNext f g := by
  unfold Flush.handBackFailed at hst
  split at hst
  case h_2 => cases hst
  rename_i i hph
  cases h.at hph with
  | @tailBack drain head tail hea failed b hat hin hba hhe hfa =>
    have hen := hat.entries
    split_ifs at hst with hfr
    · -- the draining list is frozen and has it
      cases hst
      refine ⟨⟨{ h.sound with }, ?_⟩, .of_live_eq rfl⟩
      exact .failedBack { hat with back := { hat.back with
        order := hat.back.order.trans (sublist_cons_self ..)
        covered := fun _ _ => .inr hfr } } hin hba hhe
    · obtain ⟨m, hm, hst⟩ := bind_eq_some_iff.mp hst
      obtain ⟨marked, hma, hst⟩ := bind_eq_some_iff.mp hst
      obtain ⟨queue, hqu, hst⟩ := bind_eq_some_iff.mp hst
      cases hst
      rw [hen, hin, List.getElem?_append_right le_rfl, Nat.sub_self] at hm
      obtain rfl : failed = m := some.inj hm
      have hso := h.sound.step (l := .annotate 0 failed.id requeued) hma trivial
      have hsou := hso.step (l := .handBackBatch 0 fun id => id = failed.id) hqu trivial
      have hids := h.sound.inv.inHand_nodup (mem_of_getElem? hat.get)
      rw [hin] at hids
      have hat' := hat.updateInHand failed.id requeued.on
      rw [hin, map_key_split hids] at hat'
      rw [System.annotate, hat.get, map_some] at hma
      cases hma
      have hid' : ((head ++ [requeued.on failed]).map QueuedMessage.id).Nodup := by
        simpa [requeued, Annotation.on] using hids
      obtain ⟨hgi, hke⟩ := filter_keys_right hid'
      simp only [map_singleton, mem_singleton] at hgi hke
      have hre : Alike (requeued.on failed) b := { hfa with }
      have hsub : [b] ⊆ f.batch := by simp [hba]
      obtain ⟨hat', hste⟩ := hat'.handBack hso.inv hqu hgi hke (.cons hre .nil) hsub
      refine ⟨⟨{ hsou with }, ?_⟩, _, ?_, hste⟩
      · have hno : head = head ++ [] := (append_nil _).symm
        exact .failedBack hat' hno hba hhe
      · intro e he
        rw [mem_singleton.mp he]
        exact ⟨failed, by simp [hen, hin], ⟨rfl, rfl, rfl, rfl, rfl⟩⟩

theorem FlushInv.handBackHead (hst : f.handBackHead = some g) : FlushInv g ∧ MergesNext f g := by
  unfold Flush.handBackHead at hst
  split at hst
  case h_2 => cases hst
  rename_i i hph
  cases h.at hph with
  | @failedBack drain head kept hea back hat hin hba hhe =>
    obtain ⟨queue, hqu, hst⟩ := bind_eq_some_iff.mp hst
    cases hst
    have hta : f.entries.take head.length = head := by
      rw [hat.entries, hin, take_left]
    rw [hta] at hqu
    have hids := h.sound.inv.inHand_nodup (mem_of_getElem? hat.get)
    rw [hin] at hids
    obtain ⟨hgi, hke⟩ := filter_keys_left hids
    rw [← hin] at hgi hke
    have hsub : hea ⊆ f.batch := hba ▸ subset_append_left ..
    obtain ⟨hso, hat, hme⟩ := h.handBack hat hqu hgi hke hhe hsub
    rw [← hba] at hat
    exact ⟨⟨{ hso with }, .parked hat⟩, hme⟩

/-- A drain that is gone leaves everything as it was before it popped. -/
theorem FlushInv.leave (ha : Attempt f.queue f.batch drain back)
    (hs : f.queue.leave 0 = some t) {turns : List Turn}
    (ht : ∀ turn ∈ turns, turn.Complete f.queue.transcript) :
    FlushInv { f with queue := t, phase := .idle, turns := turns } ∧ t.live = f.queue.live := by
  have hso := h.sound.step (l := .leave 0) hs trivial
  obtain ⟨hdr, hd⟩ := ha.leave hs
  rw [System.leave, ha.get, map_some] at hs
  cases hs
  exact ⟨⟨{ hso with turns := ht }, .idle hdr hd⟩, rfl⟩

theorem FlushInv.startTurn (hste : f.startTurn = some g) : FlushInv g ∧ MergesNext f g := by
  unfold Flush.startTurn at hste
  split at hste
  case h_2 => cases hste
  rename_i i hph
  cases h.at hph with
  | @storing drain stored pending storedBatch pendingBatch hst =>
    have hen := hst.attempt.entries
    split_ifs at hste with hle
    obtain ⟨first, hfi, hste⟩ := bind_eq_some_iff.mp hste
    obtain ⟨queue, hqu, hste⟩ := bind_eq_some_iff.mp hste
    cases hste
    -- the loop is over: nothing is pending
    obtain rfl : pending = [] := by
      refine eq_nil_of_length_eq_zero ?_
      rw [hen, hst.inHand, length_append] at hle
      omega
    obtain rfl := forall₂_nil_left_iff.mp hst.pending
    have hin := hst.inHand
    have hba := hst.batch_eq
    rw [append_nil] at hin hba
    have hsto := hst.stored
    rw [← hin, ← hba] at hsto
    rw [hen] at hfi ⊢
    obtain ⟨b, hb, htur⟩ := hst.head hfi
    have hco : Turn.Complete ⟨first.turnId, f.batch, drain.inHand,
        f.queue.transcript.drop f.begun⟩ f.queue.transcript := by
      refine ⟨hst.alike, fun m hm => ?_, ?_, (drop_suffix ..).isInfix⟩
      · obtain ⟨i, hi, rfl⟩ := getElem_of_mem hm
        have hpe := (hsto.get hi (hsto.length_eq ▸ hi)).2
        refine ⟨hpe, h.sound.inv.entries.stored _ ?_ hpe⟩
        exact mem_held_of_inHand (by simp [hst.attempt.drains]) hm
      · rw [hst.rows b hb, ← hba, htur]
    have htu : ∀ turn ∈ f.turns ++ [⟨first.turnId, f.batch, drain.inHand,
        f.queue.transcript.drop f.begun⟩], turn.Complete f.queue.transcript :=
      forall_mem_append.mpr ⟨h.sound.turns, forall_mem_singleton.mpr hco⟩
    obtain ⟨hinv, hli⟩ := h.leave hst.attempt hqu htu
    exact ⟨hinv, .of_live_eq hli⟩

/-- A shutdown cancels the attempt, maybe after an append that committed. -/
theorem FlushInv.abort {committed : Bool} (hs : f.abort committed = some g) :
    FlushInv g ∧ MergesNext f g := by
  unfold Flush.abort at hs
  split at hs
  · cases hs
  rename_i hn
  simp only [Bool.or_eq_true, Bool.not_eq_eq_eq_not, Bool.not_true, decide_eq_true_eq, not_or,
    Bool.not_eq_false] at hn
  obtain ⟨drain, back, ha⟩ := h.progress.attempt hn.2
  split at hs
  · split at hs
    case h_2 => cases hs
    obtain ⟨first, -, hs⟩ := bind_eq_some_iff.mp hs
    obtain ⟨m, -, hs⟩ := bind_eq_some_iff.mp hs
    obtain ⟨queue, hq, hs⟩ := bind_eq_some_iff.mp hs
    cases hs
    have hso := h.sound.step (l := .append 0 m.id first.turnId false) hq trivial
    obtain ⟨drain', -, hq⟩ := bind_eq_some_iff.mp hq
    obtain ⟨m', -, hq⟩ := bind_eq_some_iff.mp hq
    split_ifs at hq with _ ht
    · cases ht
    obtain ⟨drain'', -, rfl⟩ := map_eq_some_iff.mp hq
    refine ⟨⟨{ hso with }, .idle ?_ ?_⟩, .of_live_eq rfl⟩
    · simp [ha.drains]
    · intro hf
      rw [hn.1] at hf
      cases hf
  · obtain ⟨queue, hq, rfl⟩ := map_eq_some_iff.mp hs
    obtain ⟨hinv, hl⟩ := h.leave ha hq h.sound.turns
    exact ⟨hinv, .of_live_eq hl⟩

/-- Every step keeps the invariant, and merges only what is next to each other by submission. -/
theorem FlushInv.step {l : Label} (hs : next f l = some g) :
    FlushInv g ∧ ((∀ r, l ≠ .enqueue r) → (∀ p, l ≠ .dequeue p) → MergesNext f g) := by
  cases l with
  | enqueue r =>
    cases hs
    exact ⟨h.enqueue r, fun hne => absurd rfl (hne r)⟩
  | otherAgent =>
    cases hs
    exact ⟨h.otherAgent, fun _ _ => .of_live_eq rfl⟩
  | dequeue p => exact ⟨h.dequeue hs, fun _ hne => absurd rfl (hne p)⟩
  | annotate id a => exact (h.annotate hs).imp_right fun hm _ _ => hm
  | store ok => exact (h.store hs).imp_right fun hm _ _ => hm
  | handBackFailed => exact (h.handBackFailed hs).imp_right fun hm _ _ => hm
  | handBackHead => exact (h.handBackHead hs).imp_right fun hm _ _ => hm
  | leave =>
    simp only [next, Flush.leave] at hs
    split_ifs at hs with hp
    obtain ⟨drain, back, ha⟩ := h.progress.attempt (by simp [hp])
    obtain ⟨queue, hq, rfl⟩ := map_eq_some_iff.mp hs
    obtain ⟨hinv, hl⟩ := h.leave ha hq h.sound.turns
    exact ⟨hinv, fun _ _ => .of_live_eq hl⟩
  | startTurn => exact (h.startTurn hs).imp_right fun hm _ _ => hm
  | freeze =>
    cases hs
    exact ⟨h.freeze, fun _ _ => .of_live_eq rfl⟩
  | abort committed => exact (h.abort hs).imp_right fun hm _ _ => hm

theorem FlushInv.handedBack (hph : f.phase = .parked) : HandedBack f := by
  have hh : ∀ e ∈ f.queue.live, e ∈ f.queue.held := fun e he => mem_append_left _ he
  cases h.at hph with
  | parked ha =>
    refine ⟨fun b hb => ?_, ha.back.order, fun b hb e he hc hid => ?_, ?_⟩
    · refine (ha.back.covered b hb).imp_right fun hf => ?_
      exact ⟨hf, ha.copies b hb⟩
    · obtain ⟨hp, hs⟩ := (ha.back.merged b hb e he b.id (matches_self b)
        (hc.ids b.id (matches_self b))).resolve_left hid
      obtain ⟨author, hau⟩ := isSome_iff_exists.mp hs
      refine ⟨hp, author, fun sub hsub => ?_⟩
      exact (h.sound.authored.live e he hp sub hsub).trans hau
    · intro e he sub hsub
      refine ⟨fun hp => h.sound.inv.entries.stored e (hh e he) hp sub hsub, ?_⟩
      rintro ⟨row, hrow, hmem⟩
      by_contra hp
      exact h.sound.inv.entries.unstored e (hh e he) (Bool.eq_false_iff.mpr hp) sub
        hsub row hrow hmem

end Steps

/-- From any queue that runs of drains leave with nothing popped, over any attempts: no text
is stored twice, a turn that started has all its rows, in order, and what a failed attempt
hands back is the batch in order, apart from merges of what was next by submission. -/
theorem flush_stores_once {before : List QueueDrains.Label} {labels : List Label} {s : System}
    {f : Flush}
    (hbefore : Run (fun s l t => QueueDrains.Step s l t ∧ Undisturbed s l) .initial before s)
    (hquiet : Quiet s) (hrun : Run Step (.quiet s) labels f) :
    (f.queue.transcript.flatMap Row.submissions).Nodup ∧
    (∀ turn ∈ f.turns, turn.Complete f.queue.transcript) ∧ (f.phase = .parked → HandedBack f) ∧
    ∀ l g, Step f l g → (∀ r, l ≠ .enqueue r) → (∀ p, l ≠ .dequeue p) → MergesNext f g := by
  have hs : Inv s ∧ Everywhere Authored s := by
    refine hbefore.invariant (I := fun s => Inv s ∧ Everywhere Authored s)
      ⟨.initial, Everywhere.initial⟩ ?_
    rintro s l t ⟨hinv, ha⟩ ⟨hst, hl⟩
    obtain ⟨hinv, hc⟩ := hinv.step hst hl
    exact ⟨hinv, ha.step Authored.lasting hc fun r _ => Authored.entry r _⟩
  have hf : FlushInv f := by
    refine hrun.invariant (I := FlushInv) ⟨⟨hs.1, hs.2, by simp [Flush.quiet]⟩, ?_⟩
      fun _ _ _ hinv hst => (hinv.step hst).1
    exact .idle hquiet.drains fun _ => hquiet.draining
  exact ⟨hf.sound.inv.entries.once, hf.sound.turns, hf.handedBack, fun l g hst => (hf.step hst).2⟩

/-- What is known of who submitted a message. -/
def submittedBy (principal : String) : Option Json :=
  some (.obj [(fromPrincipalIdKey, .str principal)])

def first : Request := { MessageQueue.greeting with messageMetadata := submittedBy "u" }

def urgent : Request :=
  { id := "p", id_ne := by decide, content := "urgent", messageMetadata := submittedBy "v",
    interrupt := true }

def second : Request :=
  { id := "c", id_ne := by decide, content := "second", messageMetadata := submittedBy "u" }

def other : Request :=
  { id := "q", id_ne := by decide, content := "other", messageMetadata := submittedBy "v" }

/-- Two messages are popped, the second append fails, and the batch is sent at last. -/
theorem flush_stores_once_retried :
    ∃ s f, Run (fun s l t => QueueDrains.Step s l t ∧ Undisturbed s l) .initial
        [.enqueue first, .enqueue other] s ∧ Quiet s ∧
      Run Step (.quiet s) [.dequeue (.readyBatch false 2), .store true, .store false,
        .handBackFailed, .handBackHead, .leave, .dequeue (.readyBatch false 2), .store true,
        .store true, .startTurn] f ∧
      (f.queue.transcript.map Row.queuedMessageId = ["a", "q"]) ∧ f.turns.length = 1 ∧
      (f.queue.transcript.flatMap Row.submissions).Nodup ∧
      (∀ turn ∈ f.turns, turn.Complete f.queue.transcript) ∧ (f.phase = .parked → HandedBack f) ∧
      ∀ l g, Step f l g → (∀ r, l ≠ .enqueue r) → (∀ p, l ≠ .dequeue p) → MergesNext f g := by
  obtain ⟨s, f, hb, hq, hrun, hr, ht⟩ :
      ∃ s f, Run (fun s l t => QueueDrains.Step s l t ∧ Undisturbed s l) .initial
        [.enqueue first, .enqueue other] s ∧ Quiet s ∧
      Run Step (.quiet s) [.dequeue (.readyBatch false 2), .store true, .store false,
        .handBackFailed, .handBackHead, .leave, .dequeue (.readyBatch false 2), .store true,
        .store true, .startTurn] f ∧
      (f.queue.transcript.map Row.queuedMessageId = ["a", "q"]) ∧ f.turns.length = 1 := by
    refine ⟨_, _, .cons ⟨rfl, ?_⟩ (.cons ⟨rfl, ?_⟩ .nil), ⟨rfl, rfl, rfl⟩,
      .of_foldlM (f := next) (fun _ _ _ h => h) rfl, rfl, rfl⟩
    · intro drain hd
      cases hd
    · intro drain hd
      cases hd
  exact ⟨s, f, hb, hq, hrun, hr, ht, flush_stores_once hb hq hrun⟩

/-- The urgent message has its row when the append of the first fails. While only the first
and what follows it are back, the second is next to it by submission. -/
theorem merged_over_others :
    ∃ s f, Run (fun s l t => QueueDrains.Step s l t ∧ Undisturbed s l) .initial
        [.enqueue first, .enqueue urgent, .enqueue second, .enqueue other,
          .pop (.byIds ["p", "a", "q"] fun _ => true), .handBackBatch 0 fun _ => true, .leave 0] s ∧
      Quiet s ∧ Run Step (.quiet s) [.dequeue (.readyBatch false 2), .store true, .store false,
        .handBackFailed, .handBackHead] f ∧ f.phase = .parked ∧ ¬ MergesNeighbours f := by
  have hall : ∀ {s : System} {r : Request}, s.drains = [] → Undisturbed s (.enqueue r) := by
    intro s r hdra drain hdr
    rw [hdra] at hdr
    cases hdr
  refine ⟨_, _, .cons ⟨rfl, hall rfl⟩ <| .cons ⟨rfl, hall rfl⟩ <| .cons ⟨rfl, hall rfl⟩ <|
    .cons ⟨rfl, hall rfl⟩ <| .cons ⟨rfl, ?_⟩ <| .cons ⟨rfl, trivial⟩ <| .cons ⟨rfl, trivial⟩ .nil,
    ⟨rfl, rfl, rfl⟩, .of_foldlM (f := next) (fun _ _ _ h => h) rfl, rfl, fun h => ?_⟩
  · intro r _ m _ d hd
    cases hd
  · have hn := h _ (.tail _ (.head _)) (first.entry 1) (.tail _ (.head _)) (second.entry 3)
      (.tail _ (.tail _ (.tail _ (.head _)))) ?_ ?_
    · rcases hn with hq | hs
      · have hc := hq (other.entry 4) (.tail _ (.tail _ (.head _))) rfl (.cons _ (.refl _))
        cases hc.ids "q" rfl
      · have hc := hs (urgent.entry 2) (.head _) rfl (by decide) (by decide)
        cases hc.ids "p" rfl
    · refine ⟨fun id hid => ?_, fun sub hsub => ?_⟩
      · rw [(entry_matches first 1 id).mp hid]
        rfl
      · rw [mem_singleton.mp hsub]
        exact .head _
    · refine ⟨fun id hid => ?_, fun sub hsub => ?_⟩
      · rw [(entry_matches second 3 id).mp hid]
        rfl
      · rw [mem_singleton.mp hsub]
        exact .tail _ (.head _)

end Intentd.FlushTurns
