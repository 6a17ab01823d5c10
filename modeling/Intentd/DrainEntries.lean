import Intentd.QueueDrains

/-!
# What entries under drains hold

Entries in the queue and in the hands of drains are told apart by the ids they answer to:
no id belongs to two of them, whatever was merged or handed back as a new entry. An entry
without a row has no text in the transcript, one with a row has all of it there, and no
text is there twice.
-/
namespace Intentd.QueueDrains
open JsonValues QueuedMessages List Bool

/-- No id belongs to both entries. -/
def Distinct (e f : QueuedMessage) : Prop :=
  ∀ id, e.matchesSubmission id = true → f.matchesSubmission id = false

variable {e f d m : QueuedMessage}

theorem Distinct.symm (h : Distinct e f) : Distinct f e := by
  intro id hf
  rw [eq_false_iff]
  intro he
  exact absurd hf (by simp [h id he])

theorem matches_self (m : QueuedMessage) : m.matchesSubmission m.id = true := by
  simp [QueuedMessage.matchesSubmission]

theorem Distinct.id_ne (h : Distinct e f) : e.id ≠ f.id := by
  intro heq
  have := h f.id (heq ▸ matches_self e)
  rw [matches_self] at this
  cases this

structure Known (m : QueuedMessage) : Prop where
  turn : m.matchesSubmission m.turnId = true
  subs : ∀ sub ∈ m.submissions, m.matchesSubmission sub.id = true
  nonempty : m.submissions ≠ []
  nodup : m.submissions.Nodup
  id_ne : ∀ id, m.matchesSubmission id = true → id ≠ ""
  /-- Only a retry of several entries has sources, and these have their rows. -/
  plain : m.persisted = false → m.recoverySources = []
  ordered : m.recoverySources = [] → m.correlationOrderKnown = true

/-- The second entry is a state of the first, or of a copy of it. -/
structure Alike (d m : QueuedMessage) : Prop where
  id : d.id = m.id
  turnId : d.turnId = m.turnId
  merged : d.mergedSubmissionIds = m.mergedSubmissionIds
  recovery : d.recoverySources = m.recoverySources
  submissions : d.submissions = m.submissions

theorem Alike.refl (m : QueuedMessage) : Alike m m := ⟨rfl, rfl, rfl, rfl, rfl⟩

theorem Alike.symm (h : Alike d m) : Alike m d :=
  ⟨h.id.symm, h.turnId.symm, h.merged.symm, h.recovery.symm, h.submissions.symm⟩

theorem Alike.trans {n : QueuedMessage} (h : Alike d m) (h' : Alike m n) : Alike d n :=
  ⟨h.id.trans h'.id, h.turnId.trans h'.turnId, h.merged.trans h'.merged,
    h.recovery.trans h'.recovery, h.submissions.trans h'.submissions⟩

theorem Alike.matches (h : Alike d m) (id : String) :
    d.matchesSubmission id = m.matchesSubmission id := by
  simp only [QueuedMessage.matchesSubmission, h.id, h.merged, h.recovery]

theorem Alike.distinct (h : Alike d m) (hd : Distinct m e) : Distinct d e :=
  fun id hid => hd id ((h.matches id).symm.trans hid)

theorem Known.alike (hm : Known m) (h : Alike d m) (hp : m.persisted = true → d.persisted = true)
    (ho : d.correlationOrderKnown = m.correlationOrderKnown) : Known d where
  turn := by rw [h.matches, h.turnId]; exact hm.turn
  subs := fun sub hsub => (h.matches _).trans (hm.subs sub (h.submissions ▸ hsub))
  nonempty := h.submissions ▸ hm.nonempty
  nodup := h.submissions ▸ hm.nodup
  id_ne := fun id hid => hm.id_ne id ((h.matches id).symm.trans hid)
  plain := by
    intro hd
    refine h.recovery.trans (hm.plain (eq_false_iff.mpr fun hm' => ?_))
    rw [hp hm'] at hd
    cases hd
  ordered := fun hr => ho.trans (hm.ordered (h.recovery.symm.trans hr))

/-- The first entry has come to hold the second. -/
structure Covers (m d : QueuedMessage) : Prop where
  ids : ∀ id, d.matchesSubmission id = true → m.matchesSubmission id = true
  subs : d.submissions ⊆ m.submissions

theorem Alike.covers (h : Alike d m) : Covers m d :=
  ⟨fun id hid => (h.matches id).symm.trans hid, h.submissions ▸ List.Subset.refl _⟩

theorem Covers.refl (m : QueuedMessage) : Covers m m := (Alike.refl m).covers

theorem Covers.trans (h : Covers m e) (h' : Covers e d) : Covers m d :=
  ⟨fun id hid => h.ids id (h'.ids id hid), fun _ hsub => h.subs (h'.subs hsub)⟩

variable {sub : Submission}

theorem Distinct.submissions (h : Distinct e f) (he : Known e) (hf : Known f)
    (hsub : sub ∈ e.submissions) : sub ∉ f.submissions := by
  intro hmem
  have := h sub.id (he.subs sub hsub)
  rw [hf.subs sub hmem] at this
  cases this

section Request

variable (r : Request) (order : ℕ)

theorem entry_matches (id : String) : (r.entry order).matchesSubmission id = true ↔ id = r.id := by
  simp [QueuedMessage.matchesSubmission, Request.entry, eq_comm]

theorem Known.entry : Known (r.entry order) where
  turn := (entry_matches r order _).mpr rfl
  subs := by
    intro sub hsub
    rw [mem_singleton.mp hsub]
    exact (entry_matches r order _).mpr rfl
  nonempty := by simp [Request.entry]
  nodup := nodup_singleton _
  id_ne := by
    intro id hid
    rw [(entry_matches r order id).mp hid]
    exact r.id_ne
  plain := fun _ => rfl
  ordered := fun _ => rfl

end Request

section Merge

variable {e f : QueuedMessage} (he : Known e) (hf : Known f) (hmerge : e.canMergePending f = true)
include he hf hmerge

theorem appendPending_matches (id : String) : (e.appendPending f).matchesSubmission id = true ↔
      e.matchesSubmission id = true ∨ f.matchesSubmission id = true := by
  obtain ⟨-, -, hpe, hpf, -⟩ := QueuedMessage.canMergePending_iff hmerge
  have hne := hf.id_ne id
  simp only [QueuedMessage.matchesSubmission, QueuedMessage.appendPending, he.plain hpe,
    hf.plain hpf, isEmpty_nil, Bool.and_self, if_true, any_nil, Bool.or_false,
    or_eq_true, decide_eq_true_eq, mem_append, QueuedMessage.mem_submissionIds] at hne ⊢
  constructor
  · tauto
  · rintro ((h | h) | (h | h))
    · exact .inl h
    · exact .inr (.inl h)
    · exact .inr (.inr (.inl h.symm))
    · exact .inr (.inr (.inr ⟨h, hne (.inr h)⟩))

theorem Known.appendPending (hd : Distinct e f) : Known (e.appendPending f) where
  turn := (appendPending_matches he hf hmerge _).mpr (.inl he.turn)
  subs := by
    intro sub hsub
    rw [appendPending_matches he hf hmerge]
    exact (mem_append.mp hsub).imp (he.subs sub) (hf.subs sub)
  nonempty := by
    change e.submissions ++ f.submissions ≠ []
    simp [he.nonempty]
  nodup := by
    refine nodup_append.mpr ⟨he.nodup, hf.nodup, ?_⟩
    rintro a ha b hb rfl
    exact hd.submissions he hf ha hb
  id_ne := by
    intro id hid
    rcases (appendPending_matches he hf hmerge id).mp hid with h | h
    · exact he.id_ne id h
    · exact hf.id_ne id h
  plain := by
    obtain ⟨-, -, hpe, hpf, -⟩ := QueuedMessage.canMergePending_iff hmerge
    simp [QueuedMessage.appendPending, he.plain hpe, hf.plain hpf]
  ordered := by
    obtain ⟨-, -, hpe, -, -⟩ := QueuedMessage.canMergePending_iff hmerge
    intro _
    change (e.correlationOrderKnown || f.correlationOrderKnown) = true
    rw [he.ordered (he.plain hpe), Bool.true_or]

theorem covers_appendPending_left : Covers (e.appendPending f) e :=
  ⟨fun id hid => (appendPending_matches he hf hmerge id).mpr (.inl hid),
    fun _ hsub => mem_append_left _ hsub⟩

theorem covers_appendPending_right : Covers (e.appendPending f) f :=
  ⟨fun id hid => (appendPending_matches he hf hmerge id).mpr (.inr hid),
    fun _ hsub => mem_append_right _ hsub⟩

end Merge

variable {first : QueuedMessage} {rest : List QueuedMessage}

section Retry

variable {sources : List RecoverySource}

theorem add_of_notMem {source : RecoverySource}
    (h : ∀ x ∈ sources, x.messageId ≠ source.messageId) :
    RecoverySource.add source sources = sources ++ [source] := by
  induction sources with
  | nil => rfl
  | cons x sources ih =>
    have hx : x.isSame source = false := by
      simp [RecoverySource.isSame, h x (by simp)]
    rw [RecoverySource.add, hx, if_neg Bool.false_ne_true,
      ih fun y hy => h y (mem_cons_of_mem _ hy), cons_append]

theorem normalize_of_nodup (h : (sources.map RecoverySource.messageId).Nodup) :
    RecoverySource.normalize sources = sources := by
  have hfo : ∀ (rest seen : List RecoverySource),
        ((seen ++ rest).map RecoverySource.messageId).Nodup →
        rest.foldl (fun result source => RecoverySource.add source result) seen = seen ++ rest := by
    intro rest
    induction rest with
    | nil => intro seen _; simp
    | cons source rest ih =>
      intro seen hn
      have hnew : ∀ x ∈ seen, x.messageId ≠ source.messageId := by
        intro x hx
        rw [map_append] at hn
        exact (nodup_append.mp hn).2.2 _ (mem_map_of_mem hx) _ (by simp)
      rw [foldl_cons, add_of_notMem hnew, ih _ (by simpa using hn), append_assoc, singleton_append]
  exact hfo sources [] h

theorem retry_matches_single (r : Retry) (hfi : Known first) (id : String) :
    (r.entry first []).matchesSubmission id = true ↔ id = r.id ∨
      first.matchesSubmission id = true := by
  have hne := hfi.id_ne id
  simp only [QueuedMessage.matchesSubmission, Retry.entry, isEmpty_nil, if_true,
    or_eq_true, decide_eq_true_eq, QueuedMessage.mem_submissionIds] at hne ⊢
  constructor
  · rintro ((h | (h | ⟨h, -⟩)) | h)
    · exact .inl h.symm
    · exact .inr (.inl (.inl h.symm))
    · exact .inr (.inl (.inr h))
    · exact .inr (.inr h)
  · rintro (h | ((h | h) | h))
    · exact .inl (.inl h.symm)
    · exact .inl (.inr (.inl h.symm))
    · exact .inl (.inr (.inr ⟨h, hne (.inl (.inr h))⟩))
    · exact .inr h

theorem recoverySources_plain (author : QueuedMessage → Json) {entries : List QueuedMessage}
    (hp : ∀ m ∈ entries, m.recoverySources = [] ∧ m.correlationOrderKnown = true)
    (hids : (entries.map QueuedMessage.id).Nodup) :
    recoverySources author entries =
      entries.map fun m => ⟨m.id, some m.submissionIds, author m, m.userOrigin⟩ := by
  have hmap : (entries.flatMap fun m =>
      if m.recoverySources.isEmpty then
        [(⟨m.id, if m.correlationOrderKnown then some m.submissionIds else none, author m,
          m.userOrigin⟩ : RecoverySource)]
      else m.recoverySources) =
        entries.map fun m => ⟨m.id, some m.submissionIds, author m, m.userOrigin⟩ := by
    rw [map_eq_flatMap]
    refine flatMap_congr fun m hm => ?_
    obtain ⟨hs, ho⟩ := hp m hm
    rw [hs, ho]
    rfl
  rw [recoverySources, hmap]
  refine normalize_of_nodup ?_
  rw [map_map]
  exact hids

theorem retry_matches (r : Retry) (hk : ∀ m ∈ first :: rest, Known m)
    (hp : rest ≠ [] → ∀ m ∈ first :: rest, m.recoverySources = [])
    (hids : ((first :: rest).map QueuedMessage.id).Nodup) (id : String) :
    (r.entry first rest).matchesSubmission id = true ↔
      id = r.id ∨ ∃ m ∈ first :: rest, m.matchesSubmission id = true := by
  cases rest with
  | nil =>
    rw [retry_matches_single r (hk first (by simp))]
    simp
  | cons second rest =>
    have hp := hp (cons_ne_nil _ _)
    have hs : (r.entry first (second :: rest)).recoverySources = (first :: second :: rest).map
          fun m => ⟨m.id, some m.submissionIds, r.author m, m.userOrigin⟩ :=
      recoverySources_plain r.author (fun m hm => ⟨hp m hm, (hk m hm).ordered (hp m hm)⟩) hids
    have hme : ∀ m ∈ first :: second :: rest,
        ((m.id = id ∨ id ∈ m.submissionIds) ↔ m.matchesSubmission id = true) := by
      intro m hm
      have hne := (hk m hm).id_ne id
      simp only [QueuedMessage.matchesSubmission, hp m hm, any_nil, Bool.or_false,
        Bool.or_eq_true, decide_eq_true_eq, QueuedMessage.mem_submissionIds] at hne ⊢
      constructor
      · rintro (h | h | ⟨h, -⟩)
        · exact .inl h
        · exact .inl h.symm
        · exact .inr h
      · rintro (h | h)
        · exact .inl h
        · exact .inr (.inr ⟨h, hne (.inr h)⟩)
    have hma : (r.entry first (second :: rest)).matchesSubmission id = true ↔
        r.id = id ∨ ∃ m ∈ first :: second :: rest, m.id = id ∨ id ∈ m.submissionIds := by
      rw [QueuedMessage.matchesSubmission, hs]
      have hmer : (r.entry first (second :: rest)).mergedSubmissionIds = [] := rfl
      have hid : (r.entry first (second :: rest)).id = r.id := rfl
      rw [hmer, hid]
      simp
    rw [hma]
    constructor
    · rintro (h | ⟨m, hm, h⟩)
      · exact .inl h.symm
      · exact .inr ⟨m, hm, (hme m hm).mp h⟩
    · rintro (h | ⟨m, hm, h⟩)
      · exact .inl h.symm
      · exact .inr ⟨m, hm, (hme m hm).mpr h⟩

end Retry

structure Entries (lastOrder : ℕ) (transcript : List Row) (held : List QueuedMessage) : Prop where
  known : ∀ m ∈ held, Known m
  distinct : held.Pairwise Distinct
  orders : ∀ m ∈ held, ∀ sub ∈ m.submissions, sub.order ≤ lastOrder
  stored : ∀ m ∈ held, m.persisted = true →
    ∀ sub ∈ m.submissions, ∃ row ∈ transcript, sub ∈ row.submissions
  unstored : ∀ m ∈ held, m.persisted = false →
    ∀ sub ∈ m.submissions, ∀ row ∈ transcript, sub ∉ row.submissions
  once : (transcript.flatMap Row.submissions).Nodup
  rows : ∀ row ∈ transcript, ∀ sub ∈ row.submissions, sub.order ≤ lastOrder

namespace Entries

variable {lastOrder : ℕ} {transcript : List Row} {held held' : List QueuedMessage}
  {e f m m' : QueuedMessage}

section

variable (h : Entries lastOrder transcript held)
include h

theorem perm (hp : held.Perm held') : Entries lastOrder transcript held' where
  known := fun m hm => h.known m (hp.mem_iff.mpr hm)
  distinct := h.distinct.perm hp Distinct.symm
  orders := fun m hm => h.orders m (hp.mem_iff.mpr hm)
  stored := fun m hm => h.stored m (hp.mem_iff.mpr hm)
  unstored := fun m hm => h.unstored m (hp.mem_iff.mpr hm)
  once := h.once
  rows := h.rows

theorem sublist (hsub : held'.Sublist held) : Entries lastOrder transcript held' where
  known := fun m hm => h.known m (hsub.mem hm)
  distinct := h.distinct.sublist hsub
  orders := fun m hm => h.orders m (hsub.mem hm)
  stored := fun m hm => h.stored m (hsub.mem hm)
  unstored := fun m hm => h.unstored m (hsub.mem hm)
  once := h.once
  rows := h.rows

theorem eq_of_matches (he : e ∈ held) (hf : f ∈ held) {id : String}
    (hid : e.matchesSubmission id = true) (hid' : f.matchesSubmission id = true) : e = f := by
  by_contra hne
  have : Std.Symm Distinct := ⟨fun _ _ hab => hab.symm⟩
  have := h.distinct.forall he hf hne id hid
  rw [hid'] at this
  cases this

theorem eq_of_submission (he : e ∈ held) (hf : f ∈ held)
    (hsub : sub ∈ e.submissions) (hs' : sub ∈ f.submissions) : e = f :=
  h.eq_of_matches he hf ((h.known e he).subs sub hsub) ((h.known f hf).subs sub hs')

theorem id_nodup : (held.map QueuedMessage.id).Nodup :=
  pairwise_map.mpr (h.distinct.imp Distinct.id_ne)

theorem submissions_nodup : (held.flatMap QueuedMessage.submissions).Nodup := by
  refine nodup_flatMap.mpr ⟨fun m hm => (h.known m hm).nodup, ?_⟩
  refine h.distinct.imp_of_mem fun he hf hd sub hsub hs' => ?_
  exact hd.submissions (h.known _ he) (h.known _ hf) hsub hs'

theorem later : Entries (lastOrder + 1) transcript held where
  known := h.known
  distinct := h.distinct
  orders := fun m hm sub hsub => (h.orders m hm sub hsub).trans (Nat.le_succ _)
  stored := h.stored
  unstored := h.unstored
  once := h.once
  rows := fun row hrow sub hsub => (h.rows row hrow sub hsub).trans (Nat.le_succ _)

theorem cons (hm : Known m) (hd : ∀ e ∈ held, Distinct m e)
    (ho : ∀ sub ∈ m.submissions, sub.order ≤ lastOrder)
    (hs : m.persisted = true → ∀ sub ∈ m.submissions, ∃ row ∈ transcript, sub ∈ row.submissions)
    (hu : m.persisted = false → ∀ sub ∈ m.submissions, ∀ row ∈ transcript, sub ∉ row.submissions) :
    Entries lastOrder transcript (m :: held) where
  known := forall_mem_cons.mpr ⟨hm, h.known⟩
  distinct := pairwise_cons.mpr ⟨hd, h.distinct⟩
  orders := forall_mem_cons.mpr ⟨ho, h.orders⟩
  stored := forall_mem_cons.mpr ⟨hs, h.stored⟩
  unstored := forall_mem_cons.mpr ⟨hu, h.unstored⟩
  once := h.once
  rows := h.rows

end

theorem fresh (h : Entries lastOrder transcript held) (r : Request)
    (hfr : ∀ m ∈ held, m.matchesSubmission r.id = false) :
    Entries (lastOrder + 1) transcript (r.entry (lastOrder + 1) :: held) := by
  refine h.later.cons (Known.entry r _) (fun m hm id hid => ?_) ?_ nofun fun _ => ?_
  · rw [(entry_matches r _ id).mp hid]
    exact hfr m hm
  · exact forall_mem_singleton.mpr le_rfl
  · refine forall_mem_singleton.mpr fun row hrow hmem => ?_
    exact absurd (h.rows row hrow _ hmem) (Nat.not_succ_le_self _)

section

variable (h : Entries lastOrder transcript (m :: held))
include h

theorem tail : Entries lastOrder transcript held :=
  h.sublist (sublist_cons_self ..)

/-- An entry may become another one that holds the same under the ids it had. -/
theorem replace (hm' : Known m') (ha : Alike m' m) (hpe : m'.persisted = m.persisted) :
    Entries lastOrder transcript (m' :: held) := by
  have hm := mem_cons_self (a := m) (l := held)
  refine h.tail.cons hm' (fun e he => ha.distinct ((pairwise_cons.mp h.distinct).1 e he)) ?_ ?_ ?_
  · exact fun sub hsub => h.orders m hm sub (ha.submissions ▸ hsub)
  · exact fun hp sub hsub => h.stored m hm (hpe ▸ hp) sub (ha.submissions ▸ hsub)
  · exact fun hp sub hsub => h.unstored m hm (hpe ▸ hp) sub (ha.submissions ▸ hsub)

theorem addRow (hm : m.persisted = false) (id turnId : String) :
    Entries lastOrder (transcript ++ [⟨id, turnId, m.submissions⟩]) held := by
  have hk := h.tail
  have hd := (pairwise_cons.mp h.distinct).1
  have hkn := h.known m (by simp)
  refine { hk with stored := ?_, unstored := ?_, once := ?_, rows := ?_ }
  · intro e he hp sub hsub
    obtain ⟨row, hrow, hmem⟩ := hk.stored e he hp sub hsub
    exact ⟨row, mem_append_left _ hrow, hmem⟩
  · intro e he hp sub hsub
    refine forall_mem_append.mpr ⟨hk.unstored e he hp sub hsub, forall_mem_singleton.mpr ?_⟩
    exact (hd e he).symm.submissions (hk.known e he) hkn hsub
  · rw [flatMap_append, nodup_append]
    refine ⟨h.once, by simpa using hkn.nodup, ?_⟩
    rintro a ha b hb rfl
    obtain ⟨row, hrow, hmem⟩ := mem_flatMap.mp ha
    exact h.unstored m (by simp) hm a (by simpa using hb) row hrow hmem
  · exact forall_mem_append.mpr ⟨h.rows, forall_mem_singleton.mpr (h.orders m (by simp))⟩

theorem store (hm : m.persisted = false) (id turnId : String) :
    Entries lastOrder (transcript ++ [⟨id, turnId, m.submissions⟩])
      ({ m with persisted := true } :: held) := by
  have had := h.addRow hm id turnId
  have ha : Alike { m with persisted := true } m := ⟨rfl, rfl, rfl, rfl, rfl⟩
  have hk := h.known m (by simp)
  refine had.cons (hk.alike ha (fun _ => rfl) rfl) ?_ (h.orders m (by simp)) ?_ nofun
  · exact fun e he => ha.distinct ((pairwise_cons.mp h.distinct).1 e he)
  · exact fun _ sub hsub => ⟨_, mem_append_right _ (mem_singleton.mpr rfl), hsub⟩

end

theorem merge (h : Entries lastOrder transcript (e :: f :: held))
    (hmerge : e.canMergePending f = true) :
    Entries lastOrder transcript (e.appendPending f :: held) := by
  have he := h.known e (by simp)
  have hf := h.known f (by simp)
  obtain ⟨-, -, hpe, hpf, -⟩ := QueuedMessage.canMergePending_iff hmerge
  have hde := (pairwise_cons.mp h.distinct).1
  have hdf := (pairwise_cons.mp h.tail.distinct).1
  refine h.tail.tail.cons (he.appendPending hf hmerge (hde f (by simp))) ?_ ?_ ?_ ?_
  · intro g hg id hid
    rcases (appendPending_matches he hf hmerge id).mp hid with hid | hid
    · exact hde g (by simp [hg]) id hid
    · exact hdf g hg id hid
  · exact forall_mem_append.mpr ⟨h.orders e (by simp), h.orders f (by simp)⟩
  · exact fun hp => absurd (hpe.symm.trans hp) false_ne_true
  · exact fun _ => forall_mem_append.mpr ⟨h.unstored e (by simp) hpe, h.unstored f (by simp) hpf⟩

/-- What a drain had in hand may come back as one entry under a fresh id. -/
theorem retry (h : Entries lastOrder transcript ((first :: rest) ++ held)) (r : Retry)
    (hfr : ∀ m ∈ (first :: rest) ++ held, m.matchesSubmission r.id = false)
    (hpl : rest ≠ [] → ∀ m ∈ first :: rest, m.recoverySources = [])
    (hst : rest ≠ [] → ∀ m ∈ first :: rest, m.persisted = true) :
    Entries lastOrder transcript (r.entry first rest :: held) := by
  have hta := h.sublist (sublist_append_left (first :: rest) held)
  have hke := h.sublist (sublist_append_right (first :: rest) held)
  have hma := retry_matches r hta.known hpl hta.id_nodup
  have hsu : ∀ sub ∈ (r.entry first rest).submissions,
      ∃ m ∈ first :: rest, sub ∈ m.submissions := fun sub => mem_flatMap.mp
  have hun : (r.entry first rest).persisted = false → rest = [] := by
    intro hp
    by_contra hre
    have hall : (first :: rest).all (·.persisted) = true := all_eq_true.mpr (hst hre)
    rw [Retry.entry, hall] at hp
    cases hp
  refine hke.cons ⟨?_, ?_, ?_, ?_, ?_, fun hp => ?_, fun hr => ?_⟩ ?_ ?_ ?_ ?_
  · exact (hma _).mpr (.inr ⟨first, by simp, (hta.known first (by simp)).turn⟩)
  · intro sub hsub
    obtain ⟨m, hm, hmem⟩ := hsu sub hsub
    exact (hma _).mpr (.inr ⟨m, hm, (hta.known m hm).subs sub hmem⟩)
  · change first.submissions ++ rest.flatMap _ ≠ []
    simp [(hta.known first (by simp)).nonempty]
  · exact hta.submissions_nodup
  · intro id hid
    rcases (hma id).mp hid with rfl | ⟨m, hm, hid⟩
    · exact r.id_ne
    · exact (hta.known m hm).id_ne id hid
  · obtain rfl := hun hp
    exact (hta.known first (by simp)).plain (by simpa [Retry.entry] using hp)
  · cases rest with
    | nil =>
      have := (hta.known first (by simp)).ordered hr
      simp [Retry.entry, this]
    | cons second rest =>
      have hpl := hpl (cons_ne_nil _ _)
      have hso := recoverySources_plain r.author
        (fun m hm => ⟨hpl m hm, (hta.known m hm).ordered (hpl m hm)⟩) hta.id_nodup
      cases hso.symm.trans hr
  · intro e he id hid
    rcases (hma id).mp hid with rfl | ⟨m, hm, hid⟩
    · exact hfr e (mem_append_right _ he)
    · exact (pairwise_append.mp h.distinct).2.2 m hm e he id hid
  · intro sub hsub
    obtain ⟨m, hm, hmem⟩ := hsu sub hsub
    exact hta.orders m hm sub hmem
  · intro hp sub hsub
    obtain ⟨m, hm, hmem⟩ := hsu sub hsub
    exact hta.stored m hm (all_eq_true.mp hp m hm) sub hmem
  · intro hp
    obtain rfl := hun hp
    have hno : first.persisted = false := by simpa [Retry.entry] using hp
    intro sub hsub
    exact hta.unstored first (by simp) hno sub (by simpa [Retry.entry] using hsub)

end Entries

end Intentd.QueueDrains
