import Intentd.HeldEntries

/-!
# The queue after a clean shutdown

The rows a shutdown writes are those of the frozen draining list, each taken from the live
queue if an entry there is the same, and then those of the live entries that are the same
as none. A new process reads them back, and marks an entry that was popped as stored if a
user row names it. Writing and reading rows loses nothing but what the payload skips.

A current-runtime monitor turn is in memory only: its entry is left out of the rows.
-/
namespace Intentd.QueueRecovery
open QueuedMessages KeyedLists QueueDrains LabelledRuns List QueuedMessage

/-- A row's entry, and whether it is marked `shutdownRecovery`. -/
structure QueueRow where
  message : QueuedMessage
  shutdownRecovery : Bool

section Rows

variable (s : System)

def retained : List QueuedMessage := if s.frozen then s.draining else []

/-- The live state of a retained entry, if there is one. -/
def resolve (d : QueuedMessage) : QueuedMessage := (s.live.find? (sameEntry · d)).getD d

def entries : List QueuedMessage :=
  (retained s).map (resolve s) ++ s.live.filter fun m => !(retained s).any (sameEntry m ·)

def queueRows : List QueueRow :=
  ((keepFirst QueuedMessage.id [] (entries s)).filter (!·.monitorTurn)).map fun m =>
    ⟨m, s.frozen && s.draining.any (sameEntry m ·)⟩

end Rows

def QueueRow.read (row : QueueRow) : QueuedMessage :=
  { row.message with
    monitorTurn := false
    provisional := false
    turnId := if row.message.turnId = "" then row.message.id else row.message.turnId }

/-- An order is drawn for an entry that has none. -/
def readRows : ℕ → List QueueRow → List QueuedMessage
  | _, [] => []
  | last, row :: rest =>
    if row.read.submissionOrder = 0 then
      { row.read with submissionOrder := last + 1 } :: readRows (last + 1) rest
    else row.read :: readRows last rest

/-- `rehydrate_agent_queues`, for one agent. -/
def rehydrate (rows : List QueueRow) (persisted : List String) : List QueuedMessage :=
  let recover := (rows.filter (·.shutdownRecovery)).map (·.message.id)
  let queue := readRows ((rows.map (·.message.submissionOrder)).foldl max 0) rows
  if queue.any (·.id ∈ recover) then
    queue.map fun m =>
      if m.id ∈ recover then { m with persisted := m.persisted || decide (m.id ∈ persisted) } else m
  else queue

def recovered (s : System) : List QueuedMessage :=
  rehydrate (queueRows s) (s.transcript.map Row.queuedMessageId)

/-- Where the first entry of a list stands that shares a message with these. -/
def firstShared (listed : List QueuedMessage) (submissions : List Submission) : ℕ :=
  listed.findIdx fun d => d.submissions.any (· ∈ submissions)

/-- What a shutdown keeps, from the state `s` in which the drains are frozen to the state `t`
in which the rows are written. -/
structure Recovers (s t : System) : Prop where
  /-- What was queued, or popped by a drain that had its guard, is recovered. -/
  kept : ∀ sub, (sub ∈ s.live.flatMap submissions ∨ sub ∈ t.live.flatMap submissions ∨
      ∃ drain ∈ s.drains, drain.guarded = true ∧ sub ∈ drain.inHand.flatMap submissions) →
    sub ∈ (recovered t).flatMap submissions
  once : ((recovered t).flatMap submissions).Nodup
  /-- Entries with popped messages come first, in the order of the pops. -/
  order : (recovered t).Pairwise fun e f =>
    firstShared s.draining e.submissions < firstShared s.draining f.submissions ∨
      firstShared s.draining f.submissions = s.draining.length
  stored : ∀ e ∈ recovered t, ∀ row ∈ t.transcript, ∀ sub ∈ e.submissions, sub ∈ row.submissions →
    e.persisted = true

variable {m : QueuedMessage}

theorem sameEntry_matches {d : QueuedMessage} (hm : Known m) (hd : Known d)
    (hs : sameEntry m d = true) :
    ∃ id, m.matchesSubmission id = true ∧ d.matchesSubmission id = true := by
  rw [sameEntry, Bool.or_eq_true, decide_eq_true_eq] at hs
  rcases hs with hid | ht
  · exact ⟨d.id, hid, matches_self d⟩
  · exact ⟨d.turnId, ht ▸ hm.turn, hd.turn⟩

variable {s : System} {e : QueuedMessage}

section Resolve

variable (h : Inv s) {d : QueuedMessage}

include h

/-- A listed entry is resolved to the live entry that covers it, or is its own and shares no
id with a live one. -/
theorem resolve_cases (hd : d ∈ s.draining) : (∃ m ∈ s.live, Covers m d ∧ resolve s d = m) ∨
      (∀ m ∈ s.live, Distinct m d) ∧ resolve s d = d := by
  have hli := h.entries.sublist (sublist_append_left s.live _)
  have hown : (∀ m ∈ s.live, Distinct m d) → resolve s d = d := by
    intro hfr
    have hno : s.live.find? (sameEntry · d) = none := by
      refine List.find?_eq_none.mpr fun m hm hsa => ?_
      obtain ⟨id, hid, hid'⟩ := sameEntry_matches (hli.known m hm) (h.overlay.listed d hd) hsa
      rw [hfr m hm id hid] at hid'
      cases hid'
    rw [resolve, hno]
    rfl
  rcases h.overlay.carried d hd with ⟨m, hm, hco⟩ | ⟨g, hg, -, m, hm, hal⟩ | ⟨-, hfr⟩
  · refine .inl ⟨m, hm, hco, ?_⟩
    have hso : (s.live.find? (sameEntry · d)).isSome := by
      rw [List.find?_isSome]
      exact ⟨m, hm, by simp [sameEntry, hco.ids d.id (matches_self d)]⟩
    obtain ⟨m', hfi⟩ := Option.isSome_iff_exists.mp hso
    have hsa := List.find?_some hfi
    have hm' := mem_of_find?_eq_some hfi
    obtain ⟨id, hid, hid'⟩ := sameEntry_matches (hli.known m' hm') (h.overlay.listed d hd) hsa
    rw [resolve, hfi, Option.getD_some]
    exact hli.eq_of_matches hm' hm hid (hco.ids id hid')
  · have hfr : ∀ m ∈ s.live, Distinct m d := by
      intro e he
      have hha : m ∈ s.drains.flatMap Drain.inHand := mem_flatMap.mpr ⟨g, hg, hm⟩
      have hdi := (pairwise_append.mp h.entries.distinct).2.2 e he m hha
      exact (hal.distinct hdi.symm).symm
    exact .inr ⟨hfr, hown hfr⟩
  · have hfr' : ∀ m ∈ s.live, Distinct m d := fun m hm => hfr m (mem_append_left _ hm)
    exact .inr ⟨hfr', hown hfr'⟩

theorem mem_entries (he : e ∈ entries s) :
    e ∈ s.live ∨ e ∈ s.draining ∧ ∀ m ∈ s.live, Distinct m e := by
  rcases mem_append.mp he with he | he
  · obtain ⟨d, hd, rfl⟩ := mem_map.mp he
    have hd : d ∈ s.draining := by
      rw [retained] at hd
      split at hd
      · exact hd
      · cases hd
    rcases resolve_cases h hd with ⟨m, hm, -, heq⟩ | ⟨hf, heq⟩
    · exact .inl (heq ▸ hm)
    · exact .inr (heq.symm ▸ ⟨hd, hf⟩)
  · exact .inl (mem_of_mem_filter he)

theorem known_of_mem_entries (he : e ∈ entries s) : Known e := by
  rcases mem_entries h he with he | ⟨he, -⟩
  · exact h.entries.known e (mem_append_left _ he)
  · exact h.overlay.listed e he

theorem entries_distinct (he : e ∈ entries s) (hm : m ∈ entries s) (hne : e ≠ m) :
    Distinct e m := by
  have hs : Std.Symm Distinct := ⟨fun _ _ hab => hab.symm⟩
  have hl := h.entries.sublist (sublist_append_left s.live _)
  rcases mem_entries h he with he | ⟨he, hf⟩
  · rcases mem_entries h hm with hm | ⟨-, hf⟩
    · exact hl.distinct.forall he hm hne
    · exact hf e he
  · rcases mem_entries h hm with hm | ⟨hm, -⟩
    · exact (hf m hm).symm
    · exact h.overlay.apart.forall he hm hne

theorem eq_of_entries_id (he : e ∈ entries s) (hm : m ∈ entries s) (hid : e.id = m.id) : e = m := by
  by_contra hne
  exact (entries_distinct h he hm hne).id_ne hid

theorem mem_keepFirst_iff : e ∈ keepFirst QueuedMessage.id [] (entries s) ↔ e ∈ entries s := by
  refine ⟨keepFirst_sublist.mem, fun he => ?_⟩
  obtain ⟨m, hm, hid⟩ := exists_mem_keepFirst he (not_mem_nil (a := e.id))
  exact eq_of_entries_id h (keepFirst_sublist.mem hm) he hid ▸ hm

theorem live_subset_entries : s.live ⊆ entries s := by
  intro m hm
  by_cases hs : (retained s).any (sameEntry m ·) = true
  · obtain ⟨d, hd, hs⟩ := List.any_eq_true.mp hs
    refine mem_append_left _ (mem_map.mpr ⟨d, hd, ?_⟩)
    have hd : d ∈ s.draining := by
      rw [retained] at hd
      split at hd
      · exact hd
      · cases hd
    have hl := h.entries.sublist (sublist_append_left s.live _)
    obtain ⟨id, hid, hid'⟩ := sameEntry_matches (hl.known m hm) (h.overlay.listed d hd) hs
    rcases resolve_cases h hd with ⟨m', hm', hc, heq⟩ | ⟨hf, -⟩
    · rw [heq]
      exact hl.eq_of_matches hm' hm (hc.ids id hid') hid
    · rw [hf m hm id hid] at hid'
      cases hid'
  · refine mem_append_right _ (mem_filter.mpr ⟨hm, ?_⟩)
    simpa using hs

theorem submissions_resolve (hd : d ∈ s.draining) : d.submissions ⊆ (resolve s d).submissions := by
  rcases resolve_cases h hd with ⟨m, -, hc, heq⟩ | ⟨-, heq⟩
  · rw [heq]
    exact hc.subs
  · rw [heq]
    exact List.Subset.refl _

/-- A listed entry shares a message with the entry it is resolved to, and with no other. -/
theorem shares_iff (hf : s.frozen = true) (hd : d ∈ s.draining) (he : e ∈ entries s) :
    (∃ sub ∈ d.submissions, sub ∈ e.submissions) ↔ (resolve s d).id = e.id := by
  have hmem : resolve s d ∈ entries s :=
    mem_append_left _ (mem_map_of_mem (by simpa [retained, hf] using hd))
  constructor
  · rintro ⟨sub, hsub, hs'⟩
    by_contra hne
    have hdi := entries_distinct h hmem he fun heq => hne (congrArg _ heq)
    exact hdi.submissions (known_of_mem_entries h hmem) (known_of_mem_entries h he)
      (submissions_resolve h hd hsub) hs'
  · intro hid
    have heq := eq_of_entries_id h hmem he hid
    obtain ⟨sub, hsub⟩ := exists_mem_of_ne_nil _ (h.overlay.listed d hd).nonempty
    exact ⟨sub, hsub, heq ▸ submissions_resolve h hd hsub⟩

theorem firstShared_eq (hf : s.frozen = true) (he : e ∈ entries s) :
    firstShared s.draining e.submissions =
      (s.draining.map (resolve s)).findIdx (fun x => x.id = e.id) := by
  rw [firstShared, findIdx_map]
  refine findIdx_congr fun d hd => ?_
  have hiff := shares_iff h hf hd he
  rw [Bool.eq_iff_iff, List.any_eq_true]
  simpa using hiff

theorem keepFirst_order (hfr : s.frozen = true) :
    (keepFirst QueuedMessage.id [] (entries s)).Pairwise fun e f =>
      firstShared s.draining e.submissions < firstShared s.draining f.submissions ∨
        firstShared s.draining f.submissions = s.draining.length := by
  refine keepFirst_pairwise.imp_of_mem fun {e f} he hf hlt => ?_
  have he := keepFirst_sublist.mem he
  have hf := keepFirst_sublist.mem hf
  rw [firstShared_eq h hfr he, firstShared_eq h hfr hf]
  have hen : entries s = s.draining.map (resolve s) ++ s.live.filter
      fun m => !s.draining.any (sameEntry m ·) := by
    simp only [entries, retained, hfr, if_true]
  rw [hen, findIdx_append, findIdx_append] at hlt
  have hb : (s.draining.map (resolve s)).findIdx (fun x => x.id = f.id) ≤
      (s.draining.map (resolve s)).length := findIdx_le_length
  rw [length_map] at *
  split_ifs at hlt <;> omega

end Resolve

section Rehydrate

variable {rows : List QueueRow} {persisted : List String} {last : ℕ}

theorem readRows_submissions : (readRows last rows).map submissions =
    rows.map (·.message.submissions) := by
  induction rows generalizing last with
  | nil => rfl
  | cons row rows ih =>
    rw [readRows]
    split
    · rw [map_cons, map_cons, ih]
      rfl
    · rw [map_cons, map_cons, ih]
      rfl

theorem mem_readRows (hm : m ∈ readRows last rows) :
    ∃ row ∈ rows, m.id = row.message.id ∧ m.submissions = row.message.submissions ∧
      m.persisted = row.message.persisted := by
  induction rows generalizing last with
  | nil => cases hm
  | cons row rows ih =>
    have hr : ∀ {last}, m ∈ readRows last rows → ∃ row' ∈ row :: rows,
        m.id = row'.message.id ∧ m.submissions = row'.message.submissions ∧
          m.persisted = row'.message.persisted := by
      intro last hm
      obtain ⟨row', hr', hs⟩ := ih hm
      exact ⟨row', mem_cons_of_mem _ hr', hs⟩
    rw [readRows] at hm
    split at hm
    all_goals
      rcases mem_cons.mp hm with rfl | hm
      · exact ⟨row, mem_cons_self .., rfl, rfl, rfl⟩
      · exact hr hm

theorem rehydrate_submissions : (rehydrate rows persisted).map submissions =
    rows.map (·.message.submissions) := by
  unfold rehydrate
  dsimp only
  split
  · rw [map_map, ← readRows_submissions]
    refine map_congr_left fun m _ => ?_
    rw [Function.comp_apply]
    split <;> rfl
  · exact readRows_submissions

theorem mem_rehydrate (he : e ∈ rehydrate rows persisted) :
    ∃ row ∈ rows, e.submissions = row.message.submissions ∧
      (row.message.persisted = true → e.persisted = true) ∧
      (row.shutdownRecovery = true → row.message.id ∈ persisted → e.persisted = true) := by
  have hr : ∀ row ∈ rows, row.shutdownRecovery = true →
      row.message.id ∈ (rows.filter (·.shutdownRecovery)).map (·.message.id) :=
    fun row hrow hma => mem_map.mpr ⟨row, mem_filter.mpr ⟨hrow, hma⟩, rfl⟩
  unfold rehydrate at he
  dsimp only at he
  split at he
  · obtain ⟨m, hm, rfl⟩ := mem_map.mp he
    obtain ⟨row, hrow, hid, hs, hpe⟩ := mem_readRows hm
    refine ⟨row, hrow, ?_, fun hp => ?_, fun hma hmem => ?_⟩
    · split <;> exact hs
    · have hp := hpe.trans hp
      split
      · simp [hp]
      · exact hp
    · rw [if_pos (hid ▸ hr row hrow hma)]
      simp [hid, hmem]
  · rename_i hn
    obtain ⟨row, hrow, hid, hs, hpe⟩ := mem_readRows he
    refine ⟨row, hrow, hs, hpe.trans, fun hma _ => ?_⟩
    exact absurd (List.any_eq_true.mpr ⟨e, he, decide_eq_true (hid ▸ hr row hrow hma)⟩) hn

end Rehydrate

/-- No entry belongs to a monitor turn of the current runtime. -/
def Unmonitored : System → Prop := Everywhere fun m => m.monitorTurn = false

/-- What has become of a frozen queue: it still has its messages, and the list its entries. -/
structure Since (s t : System) : Prop where
  live : s.live.flatMap submissions ⊆ t.live.flatMap submissions
  draining : t.draining.map submissions = s.draining.map submissions
  frozen : t.frozen = true

/-- The steps of a shutdown's run: no monitor turn is queued. -/
def Unwithheld (s : System) (l : Label) : Prop :=
  Undisturbed s l ∧ ∀ r, l = .enqueue r → r.monitorTurn = false

section Steps

variable {t : System} {l : Label}

theorem Unmonitored.lasting : Lasting fun m => m.monitorTurn = false where
  append := fun _ _ _ he _ => he
  annotate := fun _ _ hm => hm
  registered := fun _ hm => hm
  stored := fun _ hm => hm
  committed := fun _ hm => hm
  retry := fun _ _ _ _ _ _ => rfl

theorem Since.refl (hf : s.frozen = true) : Since s s :=
  ⟨List.Subset.refl _, rfl, hf⟩

theorem Since.trans {u : System} (h : Since s t) (h' : Since t u) : Since s u :=
  ⟨fun _ hsub => h'.live (h.live hsub), h'.draining.trans h.draining, h'.frozen⟩

/-- In a frozen queue nothing is popped and nothing retired. -/
theorem Since.step (hf : s.frozen = true) (hc : Change s l t) : Since s t := by
  have hr : ∀ drain, s.retire drain = s.draining := by
    simp [System.retire, hf]
  have hme : ∀ {added queue}, Merged (added ++ s.live) queue →
      s.live.flatMap submissions ⊆ queue.flatMap submissions := by
    intro added queue hm sub hsub
    refine hm.submissions_perm.mem_iff.mpr ?_
    rw [flatMap_append]
    exact mem_append_right _ hsub
  have hs := List.Subset.refl (s.live.flatMap submissions)
  cases hc with
  | idle _ hst => exact ⟨hs, rfl, hst hf⟩
  | accepted _ ha => exact ⟨ha.submissions_subset, rfl, hf⟩
  | popped hnot => cases hf.symm.trans hnot
  | annotated | folded => exact ⟨hs, rfl, hf⟩
  | stored =>
    refine ⟨hs, ?_, hf⟩
    change (s.draining.map _).map _ = _
    rw [map_map]
    refine map_congr_left fun e _ => ?_
    rw [Function.comp_apply]
    split <;> rfl
  | handedBack _ _ hm | retried _ _ _ _ hm => exact ⟨hme hm, rfl, hf⟩
  | dropped | left => exact ⟨hs, congrArg (map _) (hr _), hf⟩

end Steps

section Recovered

variable {t : System}

theorem firstShared_congr {listed listed' : List QueuedMessage}
    (h : listed.map submissions = listed'.map submissions) :
    firstShared listed = firstShared listed' := by
  have hmap : ∀ l : List QueuedMessage, firstShared l = fun subs =>
      (l.map submissions).findIdx fun x => x.any (· ∈ subs) := by
    intro l
    funext subs
    rw [findIdx_map]
    rfl
  rw [hmap, hmap, h]

theorem queueRows_message (h : Inv t) (hun : Unmonitored t) :
    (queueRows t).map QueueRow.message = keepFirst QueuedMessage.id [] (entries t) := by
  have hf : (keepFirst QueuedMessage.id [] (entries t)).filter (!·.monitorTurn) =
      keepFirst QueuedMessage.id [] (entries t) := by
    refine filter_eq_self.mpr fun e he => ?_
    rcases mem_entries h (keepFirst_sublist.mem he) with he | ⟨he, -⟩
    · simp [hun.live e he]
    · simp [hun.draining e he]
  rw [queueRows, hf, map_map]
  exact map_id _

theorem recovered_submissions (h : Inv t) (hun : Unmonitored t) :
    (recovered t).map QueuedMessage.submissions =
      (keepFirst QueuedMessage.id [] (entries t)).map QueuedMessage.submissions := by
  rw [recovered, rehydrate_submissions, ← queueRows_message h hun, map_map]
  rfl

theorem recovered_flatMap (h : Inv t) (hun : Unmonitored t) :
    (recovered t).flatMap QueuedMessage.submissions =
      (keepFirst QueuedMessage.id [] (entries t)).flatMap QueuedMessage.submissions := by
  rw [flatMap_def, flatMap_def, recovered_submissions h hun]

theorem keepFirst_submissions_nodup (h : Inv t) :
    ((keepFirst QueuedMessage.id [] (entries t)).flatMap QueuedMessage.submissions).Nodup := by
  have hmem : ∀ e ∈ keepFirst QueuedMessage.id [] (entries t), e ∈ entries t :=
    fun e he => keepFirst_sublist.mem he
  refine nodup_flatMap.mpr ⟨fun e he => (known_of_mem_entries h (hmem e he)).nodup, ?_⟩
  refine (pairwise_map.mp keepFirst_nodup).imp_of_mem fun {e f} he hf hne sub hsub hs' => ?_
  have hd := entries_distinct h (hmem e he) (hmem f hf) fun heq => hne (congrArg _ heq)
  exact hd.submissions (known_of_mem_entries h (hmem e he)) (known_of_mem_entries h (hmem f hf))
    hsub hs'

/-- A recovered entry with a user row is marked: its live state was, or the row names it. -/
theorem recovered_stored (h : Inv t) (hun : Unmonitored t) (hfr : t.frozen = true)
    (he : e ∈ recovered t) {row : Row} (hrow : row ∈ t.transcript)
    {sub : Submission} (hsub : sub ∈ e.submissions) (hmem : sub ∈ row.submissions) :
    e.persisted = true := by
  obtain ⟨queueRow, hqu, hsu, hpe, hma⟩ := mem_rehydrate he
  rw [hsu] at hsub
  have hme : queueRow.message ∈ keepFirst QueuedMessage.id [] (entries t) := by
    rw [← queueRows_message h hun]
    exact mem_map_of_mem hqu
  have hmar : queueRow.shutdownRecovery = t.draining.any (sameEntry queueRow.message ·) := by
    obtain ⟨m, -, rfl⟩ := mem_map.mp hqu
    simp [hfr]
  rcases mem_entries h (keepFirst_sublist.mem hme) with hli | ⟨hd, hfre⟩
  · refine hpe (Bool.not_eq_false _ ▸ fun hp => ?_)
    exact h.entries.unstored _ (mem_append_left _ hli) hp sub hsub row hrow hmem
  · rcases h.overlay.stamped _ hd row hrow sub hsub hmem with ⟨m, hm, hco⟩ | hp | ⟨row', hro', hid⟩
    · have := hfre m hm _ (hco.ids _ (matches_self _))
      rw [matches_self] at this
      cases this
    · exact hpe hp
    · refine hma ?_ (mem_map.mpr ⟨row', hro', hid⟩)
      rw [hmar]
      exact List.any_eq_true.mpr ⟨_, hd, by simp [sameEntry, matches_self]⟩

theorem recovers (hs : Inv s) (ht : Inv t) (hun : Unmonitored t) (hsi : Since s t) :
    Recovers s t := by
  have hrow : ∀ {e : QueuedMessage} {sub : Submission}, e ∈ entries t → sub ∈ e.submissions →
      sub ∈ (recovered t).flatMap submissions := by
    intro e sub he hsub
    rw [recovered_flatMap ht hun]
    exact mem_flatMap.mpr ⟨e, (mem_keepFirst_iff ht).mpr he, hsub⟩
  have hl : ∀ sub ∈ t.live.flatMap submissions, sub ∈ (recovered t).flatMap submissions := by
    intro sub hsub
    obtain ⟨m, hm, hsub⟩ := mem_flatMap.mp hsub
    exact hrow (live_subset_entries ht hm) hsub
  refine ⟨?_, ?_, ?_, fun e he row hrow sub => recovered_stored ht hun hsi.frozen he hrow⟩
  · rintro sub (hsub | hsub | ⟨drain, hdr, hg, hsub⟩)
    · exact hl sub (hsi.live hsub)
    · exact hl sub hsub
    · obtain ⟨m, hm, hsub⟩ := mem_flatMap.mp hsub
      obtain ⟨-, d, hd, ha⟩ := hs.overlay.copies drain hdr hg m hm
      have hmem : m.submissions ∈ t.draining.map submissions := by
        rw [hsi.draining, ← ha.submissions]
        exact mem_map_of_mem hd
      obtain ⟨d', hd', hsu⟩ := mem_map.mp hmem
      refine hrow (e := resolve t d') ?_ (submissions_resolve ht hd' (hsu ▸ hsub))
      refine mem_append_left _ (mem_map_of_mem ?_)
      simpa [retained, hsi.frozen] using hd'
  · rw [recovered_flatMap ht hun]
    exact keepFirst_submissions_nodup ht
  · have hle : s.draining.length = t.draining.length := by
      have := congrArg length hsi.draining
      simpa using this.symm
    have ho := keepFirst_order ht hsi.frozen
    rw [firstShared_congr hsi.draining, ← hle] at ho
    have hmap : ((recovered t).map submissions).Pairwise fun a b =>
        firstShared s.draining a < firstShared s.draining b ∨
          firstShared s.draining b = s.draining.length := by
      rw [recovered_submissions ht hun]
      exact pairwise_map.mpr ho
    exact pairwise_map.mp hmap

end Recovered

/-- The drains are frozen in a state that a run reaches, and the rows are written after some
more steps: what is recovered has every message once. -/
theorem shutdown_keeps_messages {before after : List Label} {s t : System}
    (hbefore : Run (fun s l t => Step s l t ∧ Unwithheld s l) .initial before s)
    (hafter : Run (fun s l t => Step s l t ∧ Unwithheld s l) { s with frozen := true } after t) :
    Recovers s t := by
  have hs : Inv s ∧ Unmonitored s := by
    refine hbefore.invariant (I := fun s => Inv s ∧ Unmonitored s) ⟨.initial, Everywhere.initial⟩ ?_
    rintro s l t ⟨hinv, hun⟩ ⟨hst, hl⟩
    obtain ⟨hinv, hc⟩ := hinv.step hst hl.1
    exact ⟨hinv, hun.step Unmonitored.lasting hc hl.2⟩
  have hf : Inv { s with frozen := true } := (hs.1.step (l := .freeze) rfl trivial).1
  have ht : Inv t ∧ Unmonitored t ∧ Since { s with frozen := true } t := by
    refine hafter.invariant (I := fun t => Inv t ∧ Unmonitored t ∧
      Since { s with frozen := true } t)
      ⟨hf, { hs.2 with }, .refl rfl⟩ ?_
    rintro t l u ⟨hinv, hun, hsi⟩ ⟨hst, hl⟩
    obtain ⟨hinv, hc⟩ := hinv.step hst hl.1
    exact ⟨hinv, hun.step Unmonitored.lasting hc hl.2, hsi.trans (.step hsi.frozen hc)⟩
  have hr := recovers hf ht.1 ht.2.1 ht.2.2
  exact { hr with }

/-- The row of a popped message commits while its drain is cancelled by the shutdown. -/
theorem shutdown_keeps_messages_cancelled :
    ∃ s t, Run (fun s l t => Step s l t ∧ Unwithheld s l) .initial
        [.enqueue MessageQueue.greeting, .pop .userOrigin] s ∧
      Run (fun s l t => Step s l t ∧ Unwithheld s l) { s with frozen := true }
        [.append 0 "a" "a" false] t ∧ Recovers s t := by
  have hf : Unwithheld .initial (.enqueue MessageQueue.greeting) := by
    refine ⟨by simp [Undisturbed, System.initial], ?_⟩
    rintro r ⟨⟩
    rfl
  have ho : ∀ {s : System} {l : Label}, Undisturbed s l → (∀ r, l ≠ .enqueue r) →
      Unwithheld s l := fun hl hne => ⟨hl, fun r heq => absurd heq (hne r)⟩
  obtain ⟨s, t, hb, ha⟩ : ∃ s t, Run (fun s l t => Step s l t ∧ Unwithheld s l) .initial
        [.enqueue MessageQueue.greeting, .pop .userOrigin] s ∧
      Run (fun s l t => Step s l t ∧ Unwithheld s l) { s with frozen := true }
        [.append 0 "a" "a" false] t := by
    refine ⟨_, _, .cons ⟨rfl, hf⟩ (.cons ⟨rfl, ho ?_ (by simp)⟩ .nil),
      .cons ⟨rfl, ho trivial (by simp)⟩ .nil⟩
    intro r _ m _ d hd
    cases hd
  exact ⟨s, t, hb, ha, shutdown_keeps_messages hb ha⟩

/-- A message that was handed back and popped again is not in the frozen list when its first
guard is gone: nothing of it is recovered, though the second drain has its guard. -/
theorem popped_again_is_not_recovered : ∃ s t, Run Step .initial
        [.enqueue MessageQueue.greeting, .pop .userOrigin, .handBack 0 "a",
          .pop .userOrigin, .drop 0] s ∧
      Run Step { s with frozen := true } [.leave 1] t ∧ ¬ Recovers s t := by
  refine ⟨_, _, .of_foldlM (f := next) (fun _ _ _ h => h) rfl, .cons rfl .nil, fun h => ?_⟩
  have := h.kept (MessageQueue.greeting.submission 1)
      (.inr (.inr ⟨_, .tail _ (.head _), rfl, .head _⟩))
  cases this

end Intentd.QueueRecovery
