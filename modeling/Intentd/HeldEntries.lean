import Intentd.DrainInvariant

/-!
# What is true of every entry

A property of single entries that a merge, an annotation, a row, a pop and a retry keep is
true of every entry of a run: in the queue, in the hands of a drain and in the draining
list. That an entry without a row has texts of its own author only is one.
-/
namespace Intentd.QueueDrains
open QueuedMessages List

/-- A property of entries that no step of a drain takes from them. -/
structure Lasting (P : QueuedMessage → Prop) : Prop where
  append : ∀ e f, e.canMergePending f = true → P e → P f → P (e.appendPending f)
  annotate : ∀ (a : Annotation) m, P m → P (a.on m)
  registered : ∀ m, P m → P { m with provisional := !m.persisted }
  stored : ∀ m, P m → P { m with persisted := true }
  committed : ∀ m, P m → P { m with provisional := false, persisted := true }
  retry : ∀ (r : Retry) first rest,
    liftFromPrincipalId r.messageMetadata = liftFromPrincipalId first.messageMetadata →
    (rest ≠ [] → ∀ m ∈ first :: rest, m.persisted = true) →
    (∀ m ∈ first :: rest, P m) → P (r.entry first rest)

structure Everywhere (P : QueuedMessage → Prop) (s : QueueDrains.System) : Prop where
  live : ∀ m ∈ s.live, P m
  hands : ∀ g ∈ s.drains, ∀ m ∈ g.inHand, P m
  draining : ∀ m ∈ s.draining, P m

variable {d : ℕ} {drain : Drain}

namespace Everywhere

variable {P : QueuedMessage → Prop} {s t : QueueDrains.System} {l : QueueDrains.Label}

theorem initial : Everywhere P .initial :=
  ⟨by simp [System.initial], by simp [System.initial], by simp [System.initial]⟩

variable (h : Everywhere P s)
include h

theorem setDrain {live : List QueuedMessage} (hl : ∀ m ∈ live, P m)
    (hin : ∀ m ∈ drain.inHand, P m) :
    Everywhere P { s with live := live, drains := s.drains.set d drain } := by
  refine ⟨hl, fun g hg => ?_, h.draining⟩
  rcases mem_or_eq_of_mem_set hg with hg | rfl
  · exact h.hands g hg
  · exact hin

theorem updateInHand (hd : s.drains[d]? = some drain) (id : String)
    {f : QueuedMessage → QueuedMessage} (hf : ∀ m, P m → P (f m)) :
    Everywhere P (s.updateInHand d drain id f) := by
  refine h.setDrain h.live (forall_mem_map.mpr fun m hm => ?_)
  have hm := h.hands drain (mem_of_getElem? hd) m hm
  split
  · exact hf m hm
  · exact hm

theorem retire (drain : Drain) : ∀ m ∈ s.retire drain, P m :=
  fun m hm => h.draining m (mem_retire hm).1

theorem step (hP : Lasting P) (hch : Change s l t)
    (hfr : ∀ r, l = .enqueue r → P (r.entry (s.lastOrder + 1))) : Everywhere P t := by
  have hdr : ∀ {d : ℕ} {drain : Drain}, s.drains[d]? = some drain → ∀ m ∈ drain.inHand, P m :=
    fun hdr => h.hands _ (mem_of_getElem? hdr)
  have hmer : ∀ {added queue}, (∀ m ∈ added, P m) →
      Merged (added ++ s.live) queue → ∀ m ∈ queue, P m := by
    intro added queue had hme
    obtain ⟨barred, hste⟩ := hme.steps
    exact forall_of_merges hP.append hme.ids hste (forall_mem_append.mpr ⟨had, h.live⟩)
  have hre : ∀ d, ∀ g ∈ s.drains.eraseIdx d, ∀ m ∈ g.inHand, P m :=
    fun d g hg => h.hands g ((eraseIdx_sublist ..).mem hg)
  cases hch with
  | idle => exact { h with }
  | accepted hl hac =>
    exact { h with live := hac.forall hP.append (hfr _ hl) h.live }
  | popped _ hpe =>
    obtain ⟨hpo, hli⟩ := forall_mem_append.mp fun m hm => h.live m (hpe.mem_iff.mpr hm)
    refine ⟨hli, forall_mem_append.mpr ⟨h.hands, forall_mem_singleton.mpr hpo⟩, ?_⟩
    refine forall_mem_append.mpr ⟨h.draining, forall_mem_map.mpr fun m hm => ?_⟩
    exact hP.registered m (hpo m hm)
  | annotated hd id a => exact h.updateInHand hd id (hP.annotate a)
  | stored hd id row =>
    have hma : Everywhere P { s with
        transcript := s.transcript ++ [row], draining := s.commitQueueHistory id } := by
      refine { h with draining := forall_mem_map.mpr fun e he => ?_ }
      split
      · exact hP.committed e (h.draining e he)
      · exact h.draining e he
    exact hma.updateInHand hd id hP.stored
  | handedBack hd hpe hme =>
    obtain ⟨hba, hke⟩ := forall_mem_append.mp fun m hm => hdr hd m (hpe.mem_iff.mpr hm)
    exact h.setDrain (hmer hba hme) hke
  | retried hd hin hau hst hme =>
    refine h.setDrain (hmer (forall_mem_singleton.mpr ?_) hme) (by simp)
    exact hP.retry _ _ _ hau hst (hin ▸ hdr hd)
  | @dropped d drain hd =>
    have hset : Everywhere P { s with drains := s.drains.set d { drain with guarded := false } } :=
      h.setDrain h.live fun m hm => hdr hd m hm
    exact { hset with draining := h.retire drain }
  | left d drain _ =>
    exact ⟨h.live, hre d, h.retire drain⟩
  | folded hd hfo =>
    refine { h with hands := fun g hg => ?_ }
    rcases mem_or_eq_of_mem_set hg with hg | rfl
    · exact hre _ g hg
    · exact forall_mem_append.mpr ⟨hdr hd, hre _ _ (mem_of_getElem? hfo)⟩

end Everywhere

/-- An entry that has no row has only texts of its author. -/
def Authored (m : QueuedMessage) : Prop :=
  m.persisted = false → ∀ sub ∈ m.submissions, sub.principal = liftFromPrincipalId m.messageMetadata

theorem Authored.entry (r : Request) (order : ℕ) : Authored (r.entry order) :=
  fun _ => forall_mem_singleton.mpr rfl

theorem Authored.lasting : Lasting Authored where
  append := by
    intro e f hme he hf _ sub hsub
    obtain ⟨-, -, hpe, hpf, ha⟩ := QueuedMessage.canMergePending_iff hme
    change _ = liftFromPrincipalId (mergeQueueMetadata e.messageMetadata f.messageMetadata)
    rw [liftFromPrincipalId_mergeQueueMetadata]
    rcases mem_append.mp hsub with hsub | hsub
    · exact he hpe sub hsub
    · exact (hf hpf sub hsub).trans ha
  annotate := fun a m h hm sub hsub => (h hm sub hsub).trans (a.keeps_author _).symm
  registered := fun _ h => h
  stored := by
    intro m _ hm
    cases hm
  committed := by
    intro m _ hm
    cases hm
  retry := by
    intro r first rest ha hs h hm sub hsub
    change (first :: rest).all (·.persisted) = false at hm
    cases rest with
    | nil =>
      have hfi : first.persisted = false := by simpa using hm
      refine (h first (by simp) hfi sub ?_).trans ha.symm
      simpa [Retry.entry] using hsub
    | cons second rest =>
      rw [all_eq_true.mpr (hs (cons_ne_nil _ _))] at hm
      cases hm

end Intentd.QueueDrains
