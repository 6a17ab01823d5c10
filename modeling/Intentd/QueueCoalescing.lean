import Mathlib.Data.List.Flatten
import Mathlib.Data.List.Pairwise
import Intentd.KeyedLists
import Intentd.QueuedMessages

/-!
# Merging keeps what entries hold

An entry is sound if its text, its ids and its author are those of the submissions it
holds. Entries of humans that are held somewhere, in the queue or in the hands of a
drain, hold stretches of submissions that do not interleave; coalescing merges
neighbours among them and so keeps both facts, whatever the order of the queue. That the
loop only merges, and that its expectations hold, needs no more than different ids.
-/
namespace Intentd.QueuedMessages
open JsonValues KeyedLists List Option QueuedMessage

section Metadata

variable {existing incoming : Option Json} {key : String}

theorem get_mergeQueueMetadata (hkey : key ≠ mergedMessageMetadataKey) :
    (mergeQueueMetadata existing incoming).bind (·.get key) = existing.bind (·.get key) := by
  unfold mergeQueueMetadata
  split
  · split <;> exact Fields.get_insert_ne hkey _
  · rfl

theorem stringField_mergeQueueMetadata (hkey : key ≠ mergedMessageMetadataKey) :
    stringField (mergeQueueMetadata existing incoming) key = stringField existing key := by
  unfold stringField Json.strField
  rw [← bind_assoc, ← bind_assoc, get_mergeQueueMetadata hkey]

theorem asObj_mergeQueueMetadata : ((mergeQueueMetadata existing incoming).bind Json.asObj).isNone =
      (existing.bind Json.asObj).isNone := by
  unfold mergeQueueMetadata
  split
  · split <;> rfl
  · rfl

@[simp] theorem liftFromPrincipalId_mergeQueueMetadata :
    liftFromPrincipalId (mergeQueueMetadata existing incoming) = liftFromPrincipalId existing := by
  unfold liftFromPrincipalId
  rw [stringField_mergeQueueMetadata (by decide)]

@[simp] theorem isHumanAuthoredMetadata_mergeQueueMetadata :
    isHumanAuthoredMetadata (mergeQueueMetadata existing incoming) =
      isHumanAuthoredMetadata existing := by
  unfold isHumanAuthoredMetadata
  rw [liftFromPrincipalId_mergeQueueMetadata, asObj_mergeQueueMetadata,
    stringField_mergeQueueMetadata (by decide), stringField_mergeQueueMetadata (by decide),
    stringField_mergeQueueMetadata (by decide)]

@[simp] theorem isUnboundHistoricalHuman_mergeQueueMetadata :
    isUnboundHistoricalHuman (mergeQueueMetadata existing incoming) =
      isUnboundHistoricalHuman existing := by
  unfold isUnboundHistoricalHuman historicalHumanAuthor
  rw [liftFromPrincipalId_mergeQueueMetadata, get_mergeQueueMetadata (by decide)]

end Metadata

variable {m incoming : QueuedMessage} {id : String} {queue : List QueuedMessage} {lastOrder : ℕ}

@[simp] theorem isHumanQueueEntry_appendPending :
    (m.appendPending incoming).isHumanQueueEntry = m.isHumanQueueEntry := by
  simp [isHumanQueueEntry, appendPending]

theorem QueuedMessage.canMergePending_iff : m.canMergePending incoming = true →
    m.isHumanQueueEntry = true ∧ incoming.isHumanQueueEntry = true ∧ m.persisted = false ∧
      incoming.persisted = false ∧
      liftFromPrincipalId incoming.messageMetadata = liftFromPrincipalId m.messageMetadata := by
  unfold canMergePending
  simp only [Bool.and_eq_true, Bool.not_eq_eq_eq_not, Bool.not_true, Option.any_eq_true,
    decide_eq_true_eq]
  rintro ⟨⟨⟨⟨⟨⟨⟨⟨⟨⟨-, -⟩, hp⟩, hp'⟩, -⟩, -⟩, hh⟩, hh'⟩, -⟩, -⟩, author, ha, ha'⟩
  exact ⟨hh, hh', hp, hp', ha'.trans ha.symm⟩

theorem QueuedMessage.author_of_canMergePending : m.canMergePending incoming = true →
    (liftFromPrincipalId m.messageMetadata).isSome = true := by
  unfold canMergePending
  simp only [Bool.and_eq_true, Option.any_eq_true]
  rintro ⟨-, author, ha, -⟩
  rw [ha]
  rfl

theorem mem_dedup_foldl (ids seen : List String) :
    id ∈ ids.foldl (fun seen id => if id ∈ seen then seen else seen ++ [id]) seen ↔
      id ∈ ids ∨ id ∈ seen := by
  induction ids generalizing seen with
  | nil => simp
  | cons a ids ih =>
    rw [foldl_cons, ih]
    by_cases ha : a ∈ seen
    · rw [if_pos ha, mem_cons]
      constructor
      · exact Or.imp_left .inr
      · rintro ((rfl | h) | h)
        · exact .inr ha
        · exact .inl h
        · exact .inr h
    · rw [if_neg ha, mem_append, mem_singleton, mem_cons]
      tauto

theorem QueuedMessage.mem_submissionIds :
    id ∈ m.submissionIds ↔ id = m.id ∨ id ∈ m.mergedSubmissionIds ∧ id ≠ "" := by
  unfold submissionIds
  have hmem : ∀ x, x ∈ (m.mergedSubmissionIds.filter (· ≠ "")).foldl
      (fun seen id => if id ∈ seen then seen else seen ++ [id]) [] ↔
        x ∈ m.mergedSubmissionIds ∧ x ≠ "" := by
    intro x
    rw [mem_dedup_foldl]
    simp
  dsimp only
  split_ifs with hs
  · rw [hmem] at hs ⊢
    refine ⟨.inr, ?_⟩
    rintro (rfl | h)
    · exact hs
    · exact h
  · rw [mem_append, hmem, mem_singleton]
    exact or_comm

structure EntryOk (m : QueuedMessage) : Prop where
  recovery : m.recoverySources = []
  ids : ∀ id, m.matchesSubmission id = true ↔ id ∈ m.submissions.map Submission.id
  id_ne : ∀ sub ∈ m.submissions, sub.id ≠ ""
  content : m.content = "\n\n".intercalate (m.submissions.map Submission.content)
  sorted : m.submissions.Pairwise (·.order < ·.order)
  last : ∃ older latest, m.submissions = older ++ [latest] ∧ latest.order = m.submissionOrder
  principal : ∀ sub ∈ m.submissions, sub.principal = liftFromPrincipalId m.messageMetadata

/-- Every submission of the one entry is older than every submission of the other. -/
def Before (e f : QueuedMessage) : Prop :=
  ∀ a ∈ e.submissions, ∀ b ∈ f.submissions, a.order < b.order

variable {e f : QueuedMessage}

namespace EntryOk

variable (he : EntryOk e)

include he

theorem matches_self : e.id ∈ e.submissions.map Submission.id :=
  (he.ids e.id).mp (by simp [QueuedMessage.matchesSubmission])

theorem exists_mem : ∃ sub, sub ∈ e.submissions ∧ sub.order = e.submissionOrder := by
  obtain ⟨older, latest, hs, ho⟩ := he.last
  exact ⟨latest, by simp [hs], ho⟩

theorem order_le {sub : Submission} (hsub : sub ∈ e.submissions) :
    sub.order ≤ e.submissionOrder := by
  obtain ⟨older, latest, hsu, ho⟩ := he.last
  have hs := he.sorted
  rw [hsu] at hsub hs
  rcases mem_append.mp hsub with h | h
  · exact ho ▸ ((pairwise_append.mp hs).2.2 sub h latest (by simp)).le
  · rw [mem_singleton.mp h, ho]

theorem order_lt_of_before (hf : EntryOk f) (h : Before e f) :
    e.submissionOrder < f.submissionOrder := by
  obtain ⟨a, ha, ho⟩ := he.exists_mem
  obtain ⟨b, hb, ho'⟩ := hf.exists_mem
  exact ho ▸ ho' ▸ h a ha b hb

theorem appendPending (hf : EntryOk f) (hme : e.canMergePending f = true) (h : Before e f) :
    EntryOk (e.appendPending f) where
  recovery := by simp [QueuedMessage.appendPending, he.recovery, hf.recovery]
  ids := by
    intro id
    have hids := he.ids id
    have hi' := hf.ids id
    have hne : id ∈ f.submissions.map Submission.id → id ≠ "" := by
      intro hid
      obtain ⟨sub, hsub, rfl⟩ := mem_map.mp hid
      exact hf.id_ne sub hsub
    simp only [QueuedMessage.matchesSubmission, QueuedMessage.appendPending, he.recovery,
      hf.recovery, isEmpty_nil, Bool.and_self, if_true, any_nil, Bool.or_false,
      Bool.or_eq_true, decide_eq_true_eq, mem_append, QueuedMessage.mem_submissionIds,
      map_append] at hids hi' ⊢
    rw [← hids, ← hi']
    rw [← hi'] at hne
    constructor
    · tauto
    · rintro ((h | h) | (h | h))
      · exact .inl h
      · exact .inr (.inl h)
      · exact .inr (.inr (.inl h.symm))
      · exact .inr (.inr (.inr ⟨h, hne (.inr h)⟩))
  id_ne := forall_mem_append.mpr ⟨he.id_ne, hf.id_ne⟩
  content := by
    change e.content ++ "\n\n" ++ f.content = _
    have hne : ∀ {m : QueuedMessage}, EntryOk m → m.submissions.map Submission.content ≠ [] := by
      intro m hm
      obtain ⟨sub, hsub, -⟩ := hm.exists_mem
      exact ne_nil_of_mem (mem_map_of_mem hsub)
    change _ = "\n\n".intercalate ((e.submissions ++ f.submissions).map Submission.content)
    rw [he.content, hf.content, map_append, String.intercalate_append_of_ne_nil (hne he) (hne hf)]
  sorted := pairwise_append.mpr ⟨he.sorted, hf.sorted, h⟩
  last := by
    obtain ⟨older, latest, hs, ho⟩ := hf.last
    refine ⟨e.submissions ++ older, latest, ?_, ?_⟩
    · change e.submissions ++ f.submissions = _
      rw [hs, append_assoc]
    · change latest.order = max e.submissionOrder f.submissionOrder
      rw [ho, max_eq_right (he.order_lt_of_before hf h).le]
  principal := by
    obtain ⟨-, -, -, -, ha⟩ := QueuedMessage.canMergePending_iff hme
    change ∀ sub ∈ e.submissions ++ f.submissions,
        sub.principal = liftFromPrincipalId (mergeQueueMetadata _ _)
    rw [liftFromPrincipalId_mergeQueueMetadata]
    exact forall_mem_append.mpr ⟨he.principal, fun sub h => (hf.principal sub h).trans ha⟩

end EntryOk

/-- Human entries hold stretches of submissions one after the other. -/
def Apart (e f : QueuedMessage) : Prop :=
  e.isHumanQueueEntry = true → f.isHumanQueueEntry = true → Before e f ∨ Before f e

theorem Apart.symm (h : Apart e f) : Apart f e :=
  fun hf he => (h he hf).symm

def heldIds (held : List QueuedMessage) : List String :=
  held.flatMap fun m => m.submissions.map Submission.id

structure Sound (lastOrder : ℕ) (held : List QueuedMessage) : Prop where
  entry : ∀ m ∈ held, EntryOk m
  ids : (heldIds held).Nodup
  apart : held.Pairwise Apart
  le : ∀ m ∈ held, m.submissionOrder ≤ lastOrder

variable {held : List QueuedMessage}

namespace Sound

variable {lastOrder : ℕ} {held' : List QueuedMessage}

theorem perm (h : Sound lastOrder held) (hp : held.Perm held') : Sound lastOrder held' where
  entry := fun m hm => h.entry m (hp.mem_iff.mpr hm)
  ids := (hp.flatMap_right _).nodup_iff.mp h.ids
  apart := h.apart.perm hp fun hef => hef.symm
  le := fun m hm => h.le m (hp.mem_iff.mpr hm)

theorem sublist (h : Sound lastOrder held) (hsub : held'.Sublist held) : Sound lastOrder held' where
  entry := fun m hm => h.entry m (hsub.mem hm)
  ids := h.ids.sublist (hsub.flatMap _)
  apart := h.apart.sublist hsub
  le := fun m hm => h.le m (hsub.mem hm)

theorem id_nodup (h : Sound lastOrder held) : (held.map QueuedMessage.id).Nodup := by
  induction held with
  | nil => exact nodup_nil
  | cons m rest ih =>
    rw [map_cons, nodup_cons]
    refine ⟨fun hmem => ?_, ih (h.sublist (sublist_cons_self ..))⟩
    obtain ⟨m', hm', hid⟩ := mem_map.mp hmem
    have hs := (h.entry m (by simp)).matches_self
    have ho := (h.entry m' (by simp [hm'])).matches_self
    have hids : (m.submissions.map Submission.id ++ heldIds rest).Nodup := h.ids
    have hd := (nodup_append.mp hids).2.2
    exact hd _ hs _ (mem_flatMap.mpr ⟨m', hm', ho⟩) hid.symm

theorem merge {rest : List QueuedMessage}
    (h : Sound lastOrder (e :: f :: rest)) (hme : e.canMergePending f = true) (hbe : Before e f)
    (hbet : ∀ g ∈ rest, g.isHumanQueueEntry = true → Before g e ∨ Before f g) :
    Sound lastOrder (e.appendPending f :: rest) := by
  have he := h.entry e (by simp)
  have hf := h.entry f (by simp)
  refine ⟨?_, ?_, ?_, ?_⟩
  · exact forall_mem_cons.mpr ⟨he.appendPending hf hme hbe, fun m hm => h.entry m (by simp [hm])⟩
  · have hids := h.ids
    simp only [heldIds, flatMap_cons, ← append_assoc] at hids
    change ((e.submissions ++ f.submissions).map Submission.id ++ _).Nodup
    rwa [map_append]
  · have hr := pairwise_cons.mp (pairwise_cons.mp h.apart).2
    refine pairwise_cons.mpr ⟨fun g hg _ hhg => ?_, hr.2⟩
    rcases hbet g hg hhg with hge | hfg
    · refine .inr fun a ha b hb => ?_
      rcases mem_append.mp hb with hb | hb
      · exact hge a ha b hb
      · obtain ⟨c, hc, -⟩ := he.exists_mem
        exact (hge a ha c hc).trans (hbe c hc b hb)
    · refine .inl fun a ha b hb => ?_
      rcases mem_append.mp ha with ha | ha
      · obtain ⟨c, hc, -⟩ := hf.exists_mem
        exact (hbe a ha c hc).trans (hfg c hc b hb)
      · exact hfg a ha b hb
  · exact forall_mem_cons.mpr ⟨max_le (h.le e (by simp)) (h.le f (by simp)),
      fun m hm => h.le m (by simp [hm])⟩

theorem before_of_order_le (h : Sound lastOrder held) (he : e ∈ held)
    (hf : f ∈ held) (hid : e.id ≠ f.id) (hhe : e.isHumanQueueEntry = true)
    (hhf : f.isHumanQueueEntry = true) (hle : e.submissionOrder ≤ f.submissionOrder) :
    Before e f := by
  have : Std.Symm Apart := ⟨fun _ _ hab => hab.symm⟩
  have hne : e ≠ f := fun h => hid (congrArg QueuedMessage.id h)
  rcases h.apart.forall he hf hne hhe hhf with hb | hb
  · exact hb
  · exact absurd ((h.entry f hf).order_lt_of_before (h.entry e he) hb) (Nat.not_lt.mpr hle)

end Sound

/-- One merge in a queue: the newer entry `f` is appended to `e`. In order of submission no
other human entry of the queue and no barrier is between them. -/
def MergeStep (barred : List ℕ) (queue queue' : List QueuedMessage) : Prop :=
  ∃ e ∈ queue, ∃ f ∈ queue, e.id ≠ f.id ∧ e.canMergePending f = true ∧
    e.submissionOrder ≤ f.submissionOrder ∧
    (∀ g ∈ queue, g.isHumanQueueEntry = true → g.id ≠ e.id → g.id ≠ f.id →
      g.submissionOrder ≤ e.submissionOrder ∨ f.submissionOrder ≤ g.submissionOrder) ∧
    (∀ o ∈ barred, o ≤ e.submissionOrder ∨ f.submissionOrder ≤ o) ∧
    queue' = absorb QueuedMessage.id queue e f (·.appendPending f)

/-- The state of the coalescing loop: `rest` names the arrivals still to come, all of them
no older than `bound`, and the entry `previous` is the latest of those that were seen. -/
structure Arriving (barred : List ℕ) (queue : List QueuedMessage) (rest : List (ℕ × Option String))
    (previous : Option String) (bound : ℕ) : Prop where
  ids : (queue.map QueuedMessage.id).Nodup
  sorted : rest.Pairwise (fun a b => a.1 ≤ b.1)
  bound_le : ∀ x ∈ rest, bound ≤ x.1
  nodup : (rest.filterMap Prod.snd).Nodup
  named : ∀ o id, (o, some id) ∈ rest → ∃ m ∈ queue, m.id = id ∧
    m.isHumanQueueEntry = true ∧ m.submissionOrder = o
  queued : ∀ m ∈ queue, m.isHumanQueueEntry = true →
    m.submissionOrder ≤ bound ∨ (m.submissionOrder, some m.id) ∈ rest
  barriers : ∀ o ∈ barred, o ≤ bound ∨ (o, none) ∈ rest
  latest : ∀ p, previous = some p → p ∉ rest.filterMap Prod.snd ∧
    ∃ m ∈ queue, m.id = p ∧ m.isHumanQueueEntry = true ∧ m.submissionOrder = bound

variable {barred : List ℕ}

namespace Arriving

variable {bound o : ℕ} {queue : List QueuedMessage} {rest : List (ℕ × Option String)}
  {previous named : Option String} {id : String}

/-- An arrival is passed and becomes the latest one. A popped entry leaves none behind:
nothing merges across it. -/
theorem pass (h : Arriving barred queue ((o, named) :: rest) previous bound) :
    Arriving barred queue rest named o := by
  have hp (x : ℕ × Option String) (hx : x.1 ≤ bound ∨ x ∈ (o, named) :: rest) : x.1 ≤ o ∨
      x ∈ rest := by
    rcases hx with hle | hmem
    · exact .inl (hle.trans (h.bound_le _ (mem_cons_self ..)))
    · exact (mem_cons.mp hmem).imp_left fun heq => (congrArg Prod.fst heq).le
  exact {
    ids := h.ids
    sorted := (pairwise_cons.mp h.sorted).2
    bound_le := (pairwise_cons.mp h.sorted).1
    nodup := h.nodup.sublist ((sublist_cons_self ..).filterMap _)
    named := fun o' id hmem => h.named o' id (mem_cons_of_mem _ hmem)
    queued := fun m hm hh => hp (_, _) (h.queued m hm hh)
    barriers := fun o' ho' => hp (_, _) (h.barriers o' ho')
    latest := by
      rintro p rfl
      exact ⟨(nodup_cons.mp h.nodup).1, h.named o p (mem_cons_self ..)⟩ }

theorem merge (h : Arriving barred queue ((o, some f.id) :: rest) (some e.id) bound)
    (he : e ∈ queue) (hf : f ∈ queue) (heo : e.submissionOrder = bound)
    (hfo : f.submissionOrder = o) (hmer : e.canMergePending f = true) :
    e.id ≠ f.id ∧ MergeStep barred queue (absorb QueuedMessage.id queue e f (·.appendPending f)) ∧
      Arriving barred (absorb QueuedMessage.id queue e f (·.appendPending f)) rest
        (some e.id) o := by
  obtain ⟨hhe, -, -⟩ := QueuedMessage.canMergePending_iff hmer
  have hid : e.id ≠ f.id := by
    intro heq
    have := (h.latest e.id rfl).1
    rw [heq] at this
    exact this (by simp)
  have hbo : bound ≤ o := h.bound_le _ (mem_cons_self ..)
  obtain ⟨others, hpe, hot, hab⟩ := absorb_perm h.ids he hf hid
  have hmem : ∀ m ∈ absorb QueuedMessage.id queue e f (·.appendPending f),
      m = e.appendPending f ∨ m ∈ queue ∧ m.id ≠ e.id ∧ m.id ≠ f.id := by
    intro m hm
    rcases mem_cons.mp ((hab _).mem_iff.mp hm) with hm | hm
    · exact .inl hm
    · exact .inr ⟨hpe.mem_iff.mpr (by simp [hm]), hot m hm⟩
  have hke : ∀ m ∈ queue, m.id ≠ e.id → m.id ≠ f.id →
      m ∈ absorb QueuedMessage.id queue e f (·.appendPending f) := by
    intro m hm hme hmf
    have := hpe.mem_iff.mp hm
    simp only [mem_cons] at this
    rcases this with rfl | rfl | hm
    · exact absurd rfl hme
    · exact absurd rfl hmf
    · exact (hab _).mem_iff.mpr (mem_cons_of_mem _ hm)
  have hor : (e.appendPending f).submissionOrder = o := by
    change max e.submissionOrder f.submissionOrder = o
    rw [heo, hfo, max_eq_right hbo]
  have hpa := h.pass
  -- what is neither seen before `e` nor `e` itself arrives after `f`
  have hbe (x : ℕ × Option String) (hx : x.1 ≤ bound ∨ x ∈ (o, some f.id) :: rest)
      (hne : x.2 ≠ some f.id) : x.1 ≤ e.submissionOrder ∨ f.submissionOrder ≤ x.1 := by
    rw [heo, hfo]
    refine hx.imp_right fun hmem => ?_
    rcases mem_cons.mp hmem with rfl | hmem
    · exact absurd rfl hne
    · exact (pairwise_cons.mp h.sorted).1 x hmem
  refine ⟨hid, ⟨e, he, f, hf, hid, hmer, by omega, ?_, ?_, rfl⟩, ?_⟩
  · exact fun g hg hhg _ hgf => hbe (_, _) (h.queued g hg hhg) (by simpa using hgf)
  · exact fun o' ho' => hbe (_, _) (h.barriers o' ho') (by simp)
  refine { hpa with ids := ?_, named := ?_, queued := ?_, latest := ?_ }
  · have hids := (hpe.map QueuedMessage.id).nodup_iff.mp h.ids
    refine ((hab _).map QueuedMessage.id).nodup_iff.mpr ?_
    exact hids.sublist ((sublist_cons_self ..).cons_cons _)
  · intro o' id hme'
    obtain ⟨m, hm, rfl, hhu, hor'⟩ := hpa.named o' id hme'
    have hna : m.id ∈ rest.filterMap Prod.snd := mem_filterMap.mpr ⟨_, hme', rfl⟩
    refine ⟨m, hke m hm ?_ ?_, rfl, hhu, hor'⟩
    · intro heq
      exact (h.latest e.id rfl).1 (heq ▸ mem_cons_of_mem _ hna)
    · intro heq
      exact (nodup_cons.mp h.nodup).1 (heq ▸ hna)
  · intro m hm hhu
    rcases hmem m hm with rfl | ⟨hm, -, -⟩
    · exact .inl hor.le
    · exact hpa.queued m hm hhu
  · rintro p ⟨⟩
    refine ⟨fun hme' => (h.latest e.id rfl).1 (mem_cons_of_mem _ hme'), e.appendPending f,
      (hab _).mem_iff.mpr (mem_cons_self ..), rfl, ?_, hor⟩
    rw [isHumanQueueEntry_appendPending, hhe]

/-- The loop runs to its end: no expectation fails, and it only merges. -/
theorem coalesceArrivals (h : Arriving barred queue rest previous bound) :
    ∃ queue', coalesceArrivals rest previous queue = some queue' ∧
      Relation.ReflTransGen (MergeStep barred) queue queue' := by
  induction rest generalizing queue previous bound with
  | nil => exact ⟨queue, rfl, .refl⟩
  | cons x rest ih =>
    obtain ⟨o, named⟩ := x
    cases named with
    | none => exact ih h.pass
    | some id =>
      obtain ⟨f, hf, rfl, -, hfo⟩ := h.named o id (mem_cons_self ..)
      obtain ⟨index, hin, hfg⟩ := findIdx?_key h.ids hf
      have hpa := ih h.pass
      cases previous with
      | none =>
        simp only [QueuedMessages.coalesceArrivals, hin, bind_none]
        exact hpa
      | some p =>
        obtain ⟨-, e, he, rfl, -, heo⟩ := h.latest p rfl
        obtain ⟨older, hol, heg⟩ := findIdx?_key h.ids he
        simp only [QueuedMessages.coalesceArrivals, hin, bind_some, hol, heg, hfg]
        by_cases hme : e.canMergePending f = true
        · obtain ⟨hid, hste, hmer⟩ := h.merge he hf heo hfo hme
          obtain ⟨hsh, hab⟩ :=
            eraseIdx_modify_eq_absorb h.ids heg hfg hid (·.appendPending f)
          rw [if_pos hme, if_pos hsh, hab]
          obtain ⟨queue', hrun, hst⟩ := ih hmer
          exact ⟨queue', hrun, .head hste hst⟩
        · rw [if_neg hme]
          exact hpa

end Arriving

/-- What coalescing does to a queue whose entries have different ids. -/
theorem coalescePendingQueue_merges (draining : List QueuedMessage)
    (hids : (queue.map QueuedMessage.id).Nodup) :
    ∃ queue', coalescePendingQueue queue draining = some queue' ∧ Relation.ReflTransGen
        (MergeStep ((barriers queue draining).map QueuedMessage.submissionOrder)) queue queue' := by
  have hp : (arrivals queue draining).Perm _ := perm_insertionSort ..
  have hn : ((arrivals queue draining).filterMap Prod.snd).Perm
      ((queue.filter (·.isHumanQueueEntry)).map QueuedMessage.id) := by
    refine (hp.filterMap _).trans (.of_eq ?_)
    simp [filterMap_append, filterMap_map]
  suffices Arriving ((barriers queue draining).map QueuedMessage.submissionOrder) queue
      (arrivals queue draining) none 0 from this.coalesceArrivals
  refine ⟨hids, ?_, fun _ _ => Nat.zero_le _, ?_, ?_, ?_, ?_, nofun⟩
  · exact pairwise_insertionSort _ _
  · exact hn.nodup_iff.mpr (hids.sublist ((filter_sublist ..).map _))
  · intro o id hmem
    have hm' := hp.mem_iff.mp hmem
    simp only [mem_append, List.mem_map, Prod.mk.injEq, reduceCtorEq, and_false,
      exists_false, or_false, Option.some.injEq, mem_filter] at hm'
    obtain ⟨m, ⟨hm, hh⟩, hor, hid⟩ := hm'
    exact ⟨m, hm, hid, hh, hor⟩
  · intro m hm hh
    refine .inr (hp.mem_iff.mpr (mem_append_left _ (mem_map.mpr ⟨m, ?_, rfl⟩)))
    exact mem_filter.mpr ⟨hm, hh⟩
  · exact forall_mem_map.mpr fun d hd =>
      .inr (hp.mem_iff.mpr (mem_append_right _ (mem_map.mpr ⟨d, hd, rfl⟩)))

variable {hands : List QueuedMessage}

section MergeStep

variable {queue queue' : List QueuedMessage}

theorem MergeStep.perm (h : MergeStep barred queue queue')
    (hids : (queue.map QueuedMessage.id).Nodup) :
    ∃ e f others, e.canMergePending f = true ∧ queue.Perm (e :: f :: others) ∧
      queue'.Perm (e.appendPending f :: others) := by
  obtain ⟨e, he, f, hf, hid, hm, -, -, -, rfl⟩ := h
  obtain ⟨others, hp, -, ha⟩ := absorb_perm hids he hf hid
  exact ⟨e, f, others, hm, hp, ha _⟩

theorem MergeStep.mono {barred' : List ℕ} (hsub : barred' ⊆ barred)
    (h : MergeStep barred queue queue') : MergeStep barred' queue queue' := by
  obtain ⟨e, he, f, hf, hid, hm, hle, hb, hba, hq⟩ := h
  exact ⟨e, he, f, hf, hid, hm, hle, hb, fun o ho => hba o (hsub ho), hq⟩

theorem MergeStep.id_nodup (h : MergeStep barred queue queue')
    (hids : (queue.map QueuedMessage.id).Nodup) : (queue'.map QueuedMessage.id).Nodup := by
  obtain ⟨e, f, others, -, hp, hp'⟩ := h.perm hids
  refine (hp'.map QueuedMessage.id).nodup_iff.mpr ?_
  exact ((hp.map QueuedMessage.id).nodup_iff.mp hids).sublist ((sublist_cons_self ..).cons_cons _)

theorem submissions_perm_of_merges (hids : (queue.map QueuedMessage.id).Nodup)
    (h : Relation.ReflTransGen (MergeStep barred) queue queue') :
    (queue'.flatMap QueuedMessage.submissions).Perm (queue.flatMap QueuedMessage.submissions) := by
  induction h using Relation.ReflTransGen.head_induction_on with
  | refl => exact .refl _
  | @head queue _ hs _ ih =>
    refine (ih (hs.id_nodup hids)).trans ?_
    obtain ⟨e, f, others, -, hp, hp'⟩ := hs.perm hids
    refine (hp'.flatMap_right _).trans (.trans (.of_eq ?_) (hp.flatMap_right _).symm)
    change (e.submissions ++ f.submissions) ++ _ = e.submissions ++ (f.submissions ++ _)
    rw [append_assoc]

/-- A merge of sound entries is sound, if the barriers are as late as the human entries
that are in the hands of a drain. -/
theorem Sound.mergeStep {lastOrder : ℕ}
    (h : Sound lastOrder (queue ++ hands)) (hst : MergeStep barred queue queue')
    (hbar : ∀ m ∈ hands, m.isHumanQueueEntry = true → m.submissionOrder ∈ barred) :
    Sound lastOrder (queue' ++ hands) := by
  obtain ⟨e, he, f, hf, hid, hme, hle, hbe, hba, rfl⟩ := hst
  obtain ⟨hhe, hhf, -⟩ := QueuedMessage.canMergePending_iff hme
  have hids : (queue.map QueuedMessage.id).Nodup :=
    (h.sublist (sublist_append_left ..)).id_nodup
  obtain ⟨others, hpe, -, hab⟩ := absorb_perm hids he hf hid
  have heq' : e ∈ queue ++ hands := mem_append_left _ he
  have hfq' : f ∈ queue ++ hands := mem_append_left _ hf
  have hhel : (queue ++ hands).Perm (e :: f :: (others ++ hands)) := hpe.append_right hands
  refine ((h.perm hhel).merge hme (h.before_of_order_le heq' hfq' hid hhe hhf hle) ?_).perm
      ((hab (·.appendPending f)).append_right hands).symm
  intro g hg hhg
  have hghe : g ∈ queue ++ hands := hhel.mem_iff.mpr (by simp_all)
  have hgid : g.id ≠ e.id ∧ g.id ≠ f.id := by
    have hno := (hhel.map QueuedMessage.id).nodup_iff.mp h.id_nodup
    simp only [map_cons, nodup_cons, mem_cons, not_or] at hno
    exact ⟨fun heq => hno.1.2 (heq ▸ mem_map_of_mem hg),
      fun heq => hno.2.1 (heq ▸ mem_map_of_mem hg)⟩
  have hla : g.submissionOrder ≤ e.submissionOrder ∨ f.submissionOrder ≤ g.submissionOrder := by
    rcases mem_append.mp hghe with hgq | hgh
    · exact hbe g hgq hhg hgid.1 hgid.2
    · exact hba _ (hbar g hgh hhg)
  rcases hla with hle | hle
  · exact .inl (h.before_of_order_le hghe heq' hgid.1 hhg hhe hle)
  · exact .inr (h.before_of_order_le hfq' hghe hgid.2.symm hhf hhg hle)

/-- What is true of two entries and of their merge stays true of a queue. -/
theorem forall_of_merges {P : QueuedMessage → Prop}
    (ha : ∀ e f, e.canMergePending f = true → P e → P f → P (e.appendPending f))
    (hids : (queue.map QueuedMessage.id).Nodup)
    (h : Relation.ReflTransGen (MergeStep barred) queue queue') (hq : ∀ m ∈ queue, P m) :
    ∀ m ∈ queue', P m := by
  induction h using Relation.ReflTransGen.head_induction_on with
  | refl => exact hq
  | head hs _ ih =>
    obtain ⟨e, f, others, hme, hp, hp'⟩ := hs.perm hids
    have hb : ∀ x ∈ e :: f :: others, P x := fun x hx => hq x (hp.mem_iff.mpr hx)
    rw [forall_mem_cons, forall_mem_cons] at hb
    have hall := forall_mem_cons.mpr ⟨ha e f hme hb.1 hb.2.1, hb.2.2⟩
    exact ih (hs.id_nodup hids) fun m hm => hall m (hp'.mem_iff.mp hm)

end MergeStep

/-- What coalescing does to sound entries, while the draining list has every human entry
that is in the hands of a drain. -/
theorem coalescePendingQueue_sound {draining : List QueuedMessage}
    (h : Sound lastOrder (queue ++ hands))
    (hco : ∀ m ∈ hands, m.isHumanQueueEntry = true → ∃ d ∈ draining, d.provisional = true ∧
      d.isHumanQueueEntry = true ∧ d.id = m.id ∧ d.submissionOrder = m.submissionOrder) :
    ∃ queue', coalescePendingQueue queue draining = some queue' ∧
      Sound lastOrder (queue' ++ hands) ∧ Relation.ReflTransGen
        (MergeStep ((barriers queue draining).map submissionOrder)) queue queue' := by
  have hqu := h.sublist (sublist_append_left queue hands)
  obtain ⟨queue', hrun, hst⟩ := coalescePendingQueue_merges draining hqu.id_nodup
  refine ⟨queue', hrun, ?_, hst⟩
  have hba : ∀ m ∈ hands, m.isHumanQueueEntry = true →
      m.submissionOrder ∈ (barriers queue draining).map submissionOrder := by
    intro m hm hhu
    obtain ⟨d, hd, hpr, hdh, hid, hor⟩ := hco m hm hhu
    refine mem_map.mpr ⟨d, mem_filter.mpr ⟨hd, ?_⟩, hor⟩
    -- a live entry that matched it would hold a submission that is in hand
    have hfr : ∀ live ∈ queue, live.matchesSubmission m.id = false := by
      intro live hli
      rw [Bool.eq_false_iff]
      intro hma
      have hids : (heldIds queue ++ heldIds hands).Nodup := by
        have := h.ids
        rwa [heldIds, flatMap_append] at this
      refine (nodup_append.mp hids).2.2 m.id ?_ m.id ?_ rfl
      · exact mem_flatMap.mpr ⟨live, hli, ((hqu.entry live hli).ids m.id).mp hma⟩
      · exact mem_flatMap.mpr ⟨m, hm, (h.entry m (by simp [hm])).matches_self⟩
    simpa [hpr, hdh, hid] using hfr
  clear hrun
  induction hst with
  | refl => exact h
  | tail _ hste ih => exact ih.mergeStep hste hba

theorem EntryOk.provisional (h : EntryOk m) (b : Bool) : EntryOk { m with provisional := b } :=
  { h with }

theorem EntryOk.entry (r : Request) (order : ℕ) : EntryOk (r.entry order) where
  recovery := rfl
  ids := by
    simp [matchesSubmission, Request.entry, Request.submission, eq_comm]
  id_ne := forall_mem_singleton.mpr r.id_ne
  content := by simp [Request.entry, Request.submission, String.intercalate_singleton]
  sorted := pairwise_singleton ..
  last := ⟨[], r.submission order, rfl, rfl⟩
  principal := forall_mem_singleton.mpr rfl

theorem Sound.fresh (h : Sound lastOrder held) (r : Request)
    (hf : r.id ∉ heldIds held) : Sound (lastOrder + 1) (r.entry (lastOrder + 1) :: held) where
  entry := forall_mem_cons.mpr ⟨.entry r _, h.entry⟩
  ids := nodup_cons.mpr ⟨hf, h.ids⟩
  apart := by
    refine pairwise_cons.mpr ⟨fun m hm _ _ => .inr fun a ha b hb => ?_, h.apart⟩
    rw [mem_singleton.mp hb]
    exact Nat.lt_succ_of_le (((h.entry m hm).order_le ha).trans (h.le m hm))
  le := forall_mem_cons.mpr ⟨Nat.le_refl _, fun m hm => (h.le m hm).trans (Nat.le_succ _)⟩

end Intentd.QueuedMessages
