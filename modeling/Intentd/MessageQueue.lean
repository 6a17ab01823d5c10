import Intentd.QueueCoalescing
import Intentd.LabelledRuns

/-!
# One agent's queue and the drains that pop from it

The live queue and the draining list are under one lock order, so an operation is one
step. A pop registers copies of what it took in the draining list and answers with a
guard that names their ids; the owner of the guard has the entries in its hands, hands
some or all of them back, and drops the guard later. Dropping a guard takes every entry
with one of its ids off the draining list, and what was still in hand counts as
delivered. Two guards may be folded into one.
-/
namespace Intentd.MessageQueue
open QueuedMessages KeyedLists List

/-- `DrainingGuard`, with the popped entries its owner still has. -/
structure DrainingGuard where
  ids : List String
  inHand : List QueuedMessage

structure System where
  live : List QueuedMessage
  draining : List QueuedMessage
  /-- The submission order drawn last, by this agent or another. -/
  lastOrder : ℕ
  guards : List DrainingGuard
  accepted : List Submission
  delivered : List Submission
  expectationFailed : Bool

def System.initial : System := ⟨[], [], 0, [], [], [], false⟩

def System.hands (s : System) : List QueuedMessage := s.guards.flatMap DrainingGuard.inHand

inductive Label where
  | enqueue (r : Request)
  | otherAgent
  | pop (p : Pop)
  /-- `requeue_front_batch` of the entries a drain chooses from its hands. -/
  | handBackBatch (guard : ℕ) (chosen : String → Bool)
  | handBack (guard : ℕ) (id : String)
  | drop (guard : ℕ)
  | merge (guard other : ℕ)

namespace System

variable (s : System)

def enqueue (r : Request) : System :=
  let enqueued := enqueueMessageWithId s.live s.draining s.lastOrder r
  { s with
    live := enqueued.queue
    lastOrder := enqueued.lastOrder
    accepted := if enqueued.accepted then s.accepted ++ [r.submission (s.lastOrder + 1)]
      else s.accepted }

/-- `pop_draining`. -/
def pop (p : Pop) : Option System :=
  (p.run s.live).map fun r =>
    { s with
      live := r.2
      draining := s.draining ++ registered r.1
      guards := s.guards ++ [⟨r.1.map QueuedMessage.id, r.1⟩] }

/-- The queue after a hand-back, or the mark of an expectation that failed. -/
def restore (live : Option (List QueuedMessage)) : System :=
  match live with
  | some live => { s with live := live }
  | none => { s with expectationFailed := true }

def handBackBatch (g : ℕ) (chosen : String → Bool) : Option System :=
  s.guards[g]?.map fun guard =>
    { s with
      guards := s.guards.set g
        { guard with inHand := guard.inHand.filter fun m => !chosen m.id } }.restore
      (requeueFrontBatch s.live s.draining (guard.inHand.filter fun m => chosen m.id))

def handBack (g : ℕ) (id : String) : Option System := do
  let guard ← s.guards[g]?
  let (m, rest) ← removeFirst (·.id = id) guard.inHand
  return { s with guards := s.guards.set g { guard with inHand := rest } }.restore
    ((requeueFront s.live s.draining m).map Prod.fst)

/-- `DrainingGuard::drop`. -/
def drop (g : ℕ) : Option System :=
  s.guards[g]?.map fun guard =>
    { s with
      draining := s.draining.filter fun m => m.id ∉ guard.ids
      guards := s.guards.eraseIdx g
      delivered := s.delivered ++ guard.inHand.flatMap QueuedMessage.submissions }

/-- `DrainingGuard::merge`. -/
def merge (g other : ℕ) : Option System := do
  let guard ← s.guards[g]?
  let rest := s.guards.eraseIdx g
  let folded ← rest[other]?
  return { s with
    guards := rest.set other ⟨guard.ids ++ folded.ids, guard.inHand ++ folded.inHand⟩ }

end System

/-- The step a label takes, if it is possible. The positions in a merge count the guards
without the first one. -/
def next (s : System) : Label → Option System
  | .enqueue r => some (s.enqueue r)
  | .otherAgent => some { s with lastOrder := s.lastOrder + 1 }
  | .pop p => s.pop p
  | .handBackBatch g chosen => s.handBackBatch g chosen
  | .handBack g id => s.handBack g id
  | .drop g => s.drop g
  | .merge g other => s.merge g other

def Step (s : System) (l : Label) (t : System) : Prop := next s l = some t

/-- A pop takes no entry whose id an outstanding guard names. -/
def Undisturbed (s : System) : Label → Prop
  | .pop p => ∀ r, p.run s.live = some r → ∀ m ∈ r.1, ∀ guard ∈ s.guards, m.id ∉ guard.ids
  | _ => True

def greeting : Request := { id := "a", id_ne := by decide, content := "hello" }

variable {queue draining : List QueuedMessage}

section Operations

variable {rest popped queue' : List QueuedMessage} {m : QueuedMessage}

theorem removeFirst_spec {α : Type} {p : α → Bool} {l rest : List α} {a : α}
    (h : removeFirst p l = some (a, rest)) : rest.Sublist l ∧ l.Perm (a :: rest) := by
  induction l generalizing rest with
  | nil => cases h
  | cons x l ih =>
    rw [removeFirst] at h
    split at h
    · cases h
      exact ⟨sublist_cons_self .., .refl _⟩
    · obtain ⟨⟨b, rest'⟩, hr, heq⟩ := Option.map_eq_some_iff.mp h
      cases heq
      obtain ⟨hsub, hp⟩ := ih hr
      exact ⟨hsub.cons_cons x, (hp.cons x).trans (.swap ..)⟩

theorem run_spec {p : Pop} (h : p.run queue = some (popped, rest)) :
    rest.Sublist queue ∧ queue.Perm (popped ++ rest) := by
  have hf : ∀ q : QueuedMessage → Bool, queue.Perm (queue.filter q ++ queue.filter (!q ·)) :=
    fun q => (filter_append_perm q queue).symm
  cases p with
  | message blocked | userOrigin =>
    obtain ⟨⟨m, rest'⟩, hr, heq⟩ := Option.map_eq_some_iff.mp h
    cases heq
    exact removeFirst_spec hr
  | readyBatch requireUserOrigin minReady =>
    simp only [Pop.run] at h
    split_ifs at h
    cases h
    exact ⟨filter_sublist, hf _⟩
  | byId id gate destinationOwner =>
    simp only [Pop.run] at h
    obtain ⟨⟨m, rest'⟩, hr, h⟩ := Option.bind_eq_some_iff.mp h
    split_ifs at h
    cases h
    exact removeFirst_spec hr
  | byIds ids gate =>
    simp only [Pop.run] at h
    split_ifs at h
    cases h
    exact ⟨filter_sublist, by simpa using hf (fun m => decide (m.id ∈ ids))⟩

theorem laterEntry_spec (best : Option (QueuedMessage × ℕ)) (x : QueuedMessage × ℕ) :
    ∃ r, laterEntry best x = some r ∧ (r = x ∨ best = some r) ∧
      x.1.submissionOrder ≤ r.1.submissionOrder ∧
      ∀ b, best = some b → b.1.submissionOrder ≤ r.1.submissionOrder := by
  cases best with
  | none => exact ⟨x, rfl, .inl rfl, Nat.le_refl _, by simp⟩
  | some b =>
    by_cases hle : b.1.submissionOrder ≤ x.1.submissionOrder
    · exact ⟨x, if_pos hle, .inl rfl, Nat.le_refl _, by simpa using hle⟩
    · exact ⟨b, if_neg hle, .inr rfl, (Nat.not_le.mp hle).le, by simp⟩

theorem foldl_laterEntry {xs : List (QueuedMessage × ℕ)} {best : Option (QueuedMessage × ℕ)}
    {r : QueuedMessage × ℕ} (h : xs.foldl laterEntry best = some r) :
    (r ∈ xs ∨ best = some r) ∧ (∀ x ∈ xs, x.1.submissionOrder ≤ r.1.submissionOrder) ∧
      ∀ b, best = some b → b.1.submissionOrder ≤ r.1.submissionOrder := by
  induction xs generalizing best with
  | nil =>
    refine ⟨.inr h, by simp, ?_⟩
    rintro b rfl
    cases h
    exact Nat.le_refl _
  | cons x xs ih =>
    obtain ⟨l, hl, hf, hxl, hbl⟩ := laterEntry_spec best x
    rw [foldl_cons, hl] at h
    obtain ⟨hmem, hxs, hlr⟩ := ih h
    have hlr := hlr l rfl
    refine ⟨?_, ?_, fun b hb => (hbl b hb).trans hlr⟩
    · rcases hmem with hmem | heq
      · exact .inl (mem_cons_of_mem _ hmem)
      · cases heq
        rcases hf with rfl | hbe
        · exact .inl (mem_cons_self ..)
        · exact .inr hbe
    · intro y hy
      rcases mem_cons.mp hy with rfl | hy
      · exact hxl.trans hlr
      · exact hxs y hy

theorem latestHuman_spec {e : QueuedMessage} {i : ℕ} (h : latestHuman queue = some (e, i)) :
    queue[i]? = some e ∧ e.isHumanQueueEntry = true ∧
      ∀ g ∈ queue, g.isHumanQueueEntry = true → g.submissionOrder ≤ e.submissionOrder := by
  obtain ⟨hmem, hl, -⟩ := foldl_laterEntry h
  obtain ⟨hmem, hh⟩ := mem_filter.mp (hmem.resolve_right (by simp))
  refine ⟨mem_zipIdx_iff_getElem?.mp hmem, hh, fun g hg hgh => ?_⟩
  obtain ⟨j, hj⟩ := getElem?_of_mem hg
  exact hl (g, j) (mem_filter.mpr ⟨mem_zipIdx_iff_getElem?.mpr hj, hgh⟩)

theorem insertQueued_interrupt (order : ℕ) (h : m.interruptPriority = true) :
    (insertQueued queue order m).queue = queue.takeWhile (·.interruptPriority) ++
      m :: queue.dropWhile (·.interruptPriority) := by
  have hin := insertIdx_append_length (queue.takeWhile (·.interruptPriority))
    (queue.dropWhile (·.interruptPriority)) m
  rw [takeWhile_append_dropWhile] at hin
  rw [insertQueued, if_pos h]
  exact hin

theorem insertQueued_normal (order : ℕ) (h : m.interruptPriority = false) :
    (insertQueued queue order m).queue = queue ++ [m] := by
  rw [insertQueued, if_neg (by simp [h])]

theorem insertQueued_split (order : ℕ) (m : QueuedMessage) : ∃ older newer, queue = older ++ newer ∧
      (insertQueued queue order m).queue = older ++ m :: newer := by
  cases hm : m.interruptPriority with
  | true => exact ⟨_, _, takeWhile_append_dropWhile.symm, insertQueued_interrupt order hm⟩
  | false => exact ⟨queue, [], (append_nil _).symm, insertQueued_normal order hm⟩

theorem insertQueued_lastOrder (order : ℕ) (m : QueuedMessage) :
    (insertQueued queue order m).lastOrder = order ∧
      (insertQueued queue order m).accepted = true := by
  unfold insertQueued
  split <;> exact ⟨rfl, rfl⟩

/-- A submission that no entry of either list has is put into the queue, or merged into
the latest human entry of the queue if no popped human entry is later. -/
inductive Accepts (queue draining : List QueuedMessage) (m : QueuedMessage) :
    List QueuedMessage → Prop
  | insert {older newer : List QueuedMessage} (hsplit : queue = older ++ newer) :
      Accepts queue draining m (older ++ m :: newer)
  | merge {e : QueuedMessage} {older newer : List QueuedMessage}
      (hsplit : queue = older ++ e :: newer) (hmerge : e.canMergePending m = true)
      (hbarrier : provisionalBarrier draining e.submissionOrder = false)
      (hlatest : ∀ g ∈ queue, g.isHumanQueueEntry = true → g.submissionOrder ≤ e.submissionOrder) :
      Accepts queue draining m (older ++ e.appendPending m :: newer)

theorem Accepts.forall {P : QueuedMessage → Prop} (h : Accepts queue draining m queue')
    (ha : ∀ e f, e.canMergePending f = true → P e → P f → P (e.appendPending f)) (hm : P m)
    (hq : ∀ e ∈ queue, P e) : ∀ e ∈ queue', P e := by
  intro g hg
  cases h with
  | insert hs =>
    rcases mem_cons.mp (perm_middle.mem_iff.mp hg) with rfl | hg
    · exact hm
    · exact hq g (hs ▸ hg)
  | @merge e older newer hs hme _ _ =>
    have hmem : ∀ x, x ∈ older ++ e :: newer → P x := fun x hx => hq x (hs ▸ hx)
    rcases mem_cons.mp (perm_middle.mem_iff.mp hg) with rfl | hg
    · exact ha e m hme (hmem e (by simp)) hm
    · exact hmem g (by rcases mem_append.mp hg with h | h <;> simp [h])

theorem Accepts.submissions_subset (h : Accepts queue draining m queue') :
    queue.flatMap QueuedMessage.submissions ⊆ queue'.flatMap QueuedMessage.submissions := by
  cases h with
  | insert hs =>
    intro sub hsub
    refine (perm_middle.flatMap_right _).mem_iff.mpr ?_
    rw [flatMap_cons, ← hs]
    exact mem_append_right _ hsub
  | @merge e older newer hs _ _ _ =>
    rw [hs]
    intro sub hsub
    simp only [flatMap_append, flatMap_cons, mem_append] at hsub ⊢
    rcases hsub with h | h | h
    · exact .inl h
    · exact .inr (.inl (mem_append_left _ h))
    · exact .inr (.inr h)

theorem enqueue_held (lastOrder : ℕ) (r : Request)
    (h : ∃ m ∈ queue ++ draining, m.matchesSubmission r.id = true) :
    (enqueueMessageWithId queue draining lastOrder r).queue = queue ∧
      (enqueueMessageWithId queue draining lastOrder r).lastOrder = lastOrder ∧
      (enqueueMessageWithId queue draining lastOrder r).accepted = false := by
  unfold enqueueMessageWithId
  split
  · exact ⟨rfl, rfl, rfl⟩
  · split
    · exact ⟨rfl, rfl, rfl⟩
    · exfalso
      rename_i _ hl _ hd
      obtain ⟨m, hm, hma⟩ := h
      rcases mem_append.mp hm with hm | hm
      · obtain ⟨i, hi⟩ := getElem?_of_mem hm
        exact find?_eq_none.mp hl (m, i) (mem_zipIdx_iff_getElem?.mpr hi) hma
      · obtain ⟨i, hi⟩ := getElem?_of_mem hm
        exact find?_eq_none.mp hd (m, i) (mem_zipIdx_iff_getElem?.mpr hi) hma

theorem enqueue_fresh (lastOrder : ℕ) (r : Request)
    (h : ∀ m ∈ queue ++ draining, m.matchesSubmission r.id = false) :
    Accepts queue draining (r.entry (lastOrder + 1))
        (enqueueMessageWithId queue draining lastOrder r).queue ∧
      (enqueueMessageWithId queue draining lastOrder r).lastOrder = lastOrder + 1 ∧
      (enqueueMessageWithId queue draining lastOrder r).accepted = true := by
  have hf : ∀ l : List QueuedMessage, l ⊆ queue ++ draining →
      l.zipIdx.find? (·.1.matchesSubmission r.id) = none := by
    intro l hl
    rw [find?_eq_none]
    intro x hx
    have hmem : x.1 ∈ l := mem_of_getElem? (mem_zipIdx_iff_getElem?.mp hx)
    simp [h x.1 (hl hmem)]
  have hin : ∀ m, Accepts queue draining m (insertQueued queue (lastOrder + 1) m).queue := by
    intro m
    obtain ⟨older, newer, hs, hq⟩ := insertQueued_split (lastOrder + 1) m
    exact hq ▸ .insert hs
  unfold enqueueMessageWithId
  rw [hf queue (subset_append_left ..), hf draining (subset_append_right ..)]
  dsimp only
  split
  · rename_i previous position hla
    obtain ⟨hget, -, hle⟩ := latestHuman_spec hla
    split_ifs with hif
    · simp only [Bool.and_eq_true, Bool.not_eq_eq_eq_not, Bool.not_true] at hif
      obtain ⟨older, newer, hs, -, -, hm⟩ := split_at hget
      refine ⟨?_, rfl, rfl⟩
      rw [hm]
      exact .merge hs hif.2 hif.1 hle
    · exact ⟨hin _, insertQueued_lastOrder ..⟩
  · exact ⟨hin _, insertQueued_lastOrder ..⟩

theorem requeueFront_eq_some (hrun : coalescePendingQueue (m :: queue) draining = some queue')
    (hfi : ∃ e ∈ queue', e.matchesSubmission m.id = true) :
    (requeueFront queue draining m).map Prod.fst = some queue' := by
  obtain ⟨e, he, hm⟩ := hfi
  obtain ⟨i, hi⟩ := getElem?_of_mem he
  have hf : (queue'.zipIdx.find? (·.1.matchesSubmission m.id)).isSome := by
    rw [find?_isSome]
    exact ⟨(e, i), mem_zipIdx_iff_getElem?.mpr hi, hm⟩
  obtain ⟨r, hr⟩ := Option.isSome_iff_exists.mp hf
  simp [requeueFront, hrun, hr]

end Operations

namespace System

variable {s : System} {r : Request}

theorem enqueue_of_held (h : ∃ m ∈ s.live ++ s.draining, m.matchesSubmission r.id = true) :
    s.enqueue r = s := by
  obtain ⟨hq, ho, ha⟩ := enqueue_held s.lastOrder r h
  simp only [System.enqueue, hq, ho, ha, Bool.false_eq_true, if_false]

theorem enqueue_of_fresh (h : ∀ m ∈ s.live ++ s.draining, m.matchesSubmission r.id = false) :
    ∃ queue, Accepts s.live s.draining (r.entry (s.lastOrder + 1)) queue ∧ s.enqueue r = { s with
        live := queue
        lastOrder := s.lastOrder + 1
        accepted := s.accepted ++ [r.submission (s.lastOrder + 1)] } := by
  obtain ⟨hac, ho, ha⟩ := enqueue_fresh s.lastOrder r h
  refine ⟨_, hac, ?_⟩
  simp only [System.enqueue, ho, ha, if_true]

end System

end Intentd.MessageQueue
