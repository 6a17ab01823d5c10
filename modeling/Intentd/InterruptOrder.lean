import Intentd.MessageQueue
import Mathlib.Data.List.TakeWhile

/-!
# The place of an interrupt message

An interrupt is put behind the interrupts that lead the queue, so it is ahead of every normal
entry. It is behind every interrupt that waits only while no normal entry is before one of them.
Enqueues, pops and merges keep that; handing a normal entry back in front of an interrupt does
not.
-/
namespace Intentd.MessageQueue
open QueuedMessages LabelledRuns List Option

def flags (queue : List QueuedMessage) : List Bool := queue.map (·.interruptPriority)

/-- No normal entry is before an interrupt. -/
def Leading (queue : List QueuedMessage) : Prop :=
  (flags queue).Pairwise fun a b => b = true → a = true

/-- No normal entry is handed back in front of an interrupt. -/
def Orderly (s : System) : Label → Prop
  | .handBackBatch g chosen => ∀ guard, s.guards[g]? = some guard →
      Leading ((guard.inHand.filter fun m => chosen m.id) ++ s.live)
  | .handBack g id => ∀ guard m rest, s.guards[g]? = some guard →
      removeFirst (·.id = id) guard.inHand = some (m, rest) → Leading (m :: s.live)
  | _ => True

variable {s t : System} {l : Label} {queue queue' : List QueuedMessage}

theorem Leading.of_sublist (h : Leading queue) (hsub : (flags queue').Sublist (flags queue)) :
    Leading queue' := Pairwise.sublist hsub h

theorem flags_modify (i : ℕ) (m : QueuedMessage) :
    flags (queue.modify i (·.appendPending m)) = flags queue := by
  refine ext_getElem? fun j => ?_
  simp only [flags, getElem?_map, getElem?_modify]
  split <;> cases queue[j]? <;> rfl

theorem flags_coalesce {arrived : List (ℕ × Option String)} {previous : Option String}
    (h : coalesceArrivals arrived previous queue = some queue') :
    (flags queue').Sublist (flags queue) := by
  fun_induction coalesceArrivals arrived previous queue with
  | case1 =>
    cases h
    exact .refl _
  | case5 =>
    rename_i ih
    refine (ih h).trans ?_
    rw [flags_modify]
    exact (eraseIdx_sublist ..).map _
  | case3 | case6 | case8 => cases h
  | case2 | case4 | case7 =>
    rename_i ih
    exact ih h

theorem Leading.coalesce {draining : List QueuedMessage} (h : Leading queue)
    (hrun : coalescePendingQueue queue draining = some queue') : Leading queue' :=
  h.of_sublist (flags_coalesce hrun)

theorem Leading.restore {live : Option (List QueuedMessage)} (h : Leading s.live)
    (hl : ∀ queue, live = some queue → Leading queue) : Leading (s.restore live).live := by
  cases live with
  | none => exact h
  | some queue => exact hl queue rfl

theorem Leading.split (h : Leading queue) :
    ∀ m ∈ queue.dropWhile (·.interruptPriority), m.interruptPriority = false := by
  induction queue with
  | nil => simp
  | cons m queue ih =>
    rw [Leading, flags, map_cons, pairwise_cons] at h
    grind [dropWhile_cons, flags, Leading]

theorem Leading.insert {order : ℕ} {m : QueuedMessage} (h : Leading queue) :
    Leading (insertQueued queue order m).queue := by
  cases hm : m.interruptPriority with
  | true =>
    rw [insertQueued_interrupt order hm]
    have hs := h.split
    have hf : ∀ e ∈ queue.takeWhile (·.interruptPriority), e.interruptPriority = true :=
      fun e he => mem_takeWhile_imp he
    rw [Leading, flags, map_append, map_cons, pairwise_append, pairwise_cons]
    grind [pairwise_iff_forall_sublist]
  | false =>
    rw [insertQueued_normal order hm, Leading, flags, map_append, pairwise_append]
    grind [Leading, flags]

theorem enqueue_queue (queue draining : List QueuedMessage) (order : ℕ) (r : Request) :
    (enqueueMessageWithId queue draining order r).queue = queue ∨
      (∃ i, (enqueueMessageWithId queue draining order r).queue =
        queue.modify i (·.appendPending (r.entry (order + 1)))) ∨
      (enqueueMessageWithId queue draining order r).queue =
        (insertQueued queue (order + 1) (r.entry (order + 1))).queue := by
  unfold enqueueMessageWithId
  grind

theorem Leading.step (h : Leading s.live) (ho : Orderly s l) (hs : Step s l t) :
    Leading t.live := by
  cases l with
  | enqueue r =>
    cases hs
    show Leading (enqueueMessageWithId s.live s.draining s.lastOrder r).queue
    rcases enqueue_queue s.live s.draining s.lastOrder r with hq | ⟨i, hq⟩ | hq
    · rwa [hq]
    · exact h.of_sublist (by rw [hq, flags_modify])
    · rw [hq]
      exact h.insert
  | otherAgent =>
    cases hs
    exact h
  | pop p =>
    obtain ⟨⟨popped, rest⟩, hr, rfl⟩ := map_eq_some_iff.mp hs
    exact h.of_sublist ((run_spec hr).1.map _)
  | handBackBatch g chosen =>
    obtain ⟨guard, hg, rfl⟩ := map_eq_some_iff.mp hs
    refine restore h fun queue hqu => ?_
    rw [requeueFrontBatch] at hqu
    split_ifs at hqu
    · cases hqu
      exact h
    · exact (ho guard hg).coalesce hqu
  | handBack g id =>
    obtain ⟨guard, hg, hs⟩ := bind_eq_some_iff.mp hs
    obtain ⟨⟨m, rest⟩, hr, hs⟩ := bind_eq_some_iff.mp hs
    cases hs
    refine restore h fun queue hqu => ?_
    obtain ⟨⟨restored, entry⟩, hre, rfl⟩ := map_eq_some_iff.mp hqu
    obtain ⟨queue, hrun, hre⟩ := bind_eq_some_iff.mp hre
    obtain ⟨found, -, hf⟩ := bind_eq_some_iff.mp hre
    cases hf
    exact (ho guard m rest hg hr).coalesce hrun
  | drop g =>
    obtain ⟨guard, hg, rfl⟩ := map_eq_some_iff.mp hs
    exact h
  | merge g other =>
    obtain ⟨guard, hg, hs⟩ := bind_eq_some_iff.mp hs
    obtain ⟨folded, hfo, hs⟩ := bind_eq_some_iff.mp hs
    cases hs
    exact h

theorem interrupts_keep_place {labels : List Label} {r : Request}
    (hrun : Run (fun s l t => Orderly s l ∧ Step s l t) .initial labels s)
    (hinterrupt : r.interrupt = true) (hopens : (s.enqueue r).live.length = s.live.length + 1) :
    ∃ before after, s.live = before ++ after ∧
      (s.enqueue r).live = before ++ r.entry (s.lastOrder + 1) :: after ∧
      (∀ m ∈ before, m.interruptPriority = true) ∧ ∀ m ∈ after, m.interruptPriority = false := by
  have hl : Leading s.live :=
    hrun.invariant (I := fun s : System => Leading s.live) Pairwise.nil fun _ _ _ h hs =>
      h.step hs.1 hs.2
  have hqu : (s.enqueue r).live =
      (insertQueued s.live (s.lastOrder + 1) (r.entry (s.lastOrder + 1))).queue := by
    rcases enqueue_queue s.live s.draining s.lastOrder r with hq | ⟨i, hq⟩ | hq
    all_goals
      grind [System.enqueue]
  refine ⟨_, _, takeWhile_append_dropWhile.symm, hqu.trans (insertQueued_interrupt _ hinterrupt),
    fun m hm => mem_takeWhile_imp hm, hl.split⟩

def urgent : Request := { id := "b", id_ne := by decide, content := "stop", interrupt := true }
def pressing : Request := { id := "w", id_ne := by decide, content := "wait", interrupt := true }

/-- A normal message is handed back, an interrupt comes, and the second interrupt goes between. -/
theorem interrupts_keep_place_second : ∃ s, Run (fun s l t => Orderly s l ∧ Step s l t) .initial
    [.enqueue greeting, .pop (.message fun _ => false), .handBack 0 "a", .enqueue urgent] s ∧
      (s.enqueue pressing).live.map (·.id) = ["b", "w", "a"] ∧
      ∃ before after, s.live = before ++ after ∧
        (s.enqueue pressing).live = before ++ pressing.entry 3 :: after ∧
        (∀ m ∈ before, m.interruptPriority = true) ∧ ∀ m ∈ after, m.interruptPriority = false := by
  have hrun : Run (fun s l t => Orderly s l ∧ Step s l t) .initial
      [.enqueue greeting, .pop (.message fun _ => false), .handBack 0 "a", .enqueue urgent] _ :=
    .cons ⟨trivial, rfl⟩ <| .cons ⟨trivial, rfl⟩ <|
      .cons ⟨fun _ _ _ _ _ => pairwise_singleton _ _, rfl⟩ <| .cons ⟨trivial, rfl⟩ .nil
  exact ⟨_, hrun, by decide, interrupts_keep_place hrun rfl rfl⟩

/-- A normal message is handed back in front of an interrupt, and the next interrupt goes
before both. -/
theorem handed_back_behind_interrupt : ∃ s, Run Step .initial
    [.enqueue greeting, .pop (.message fun _ => false), .enqueue urgent, .handBack 0 "a"] s ∧
      (s.enqueue pressing).live.map (fun m => (m.id, m.interruptPriority)) =
        [("w", true), ("a", false), ("b", true)] :=
  ⟨_, .cons rfl <| .cons rfl <| .cons rfl <| .cons rfl .nil, by decide⟩

end Intentd.MessageQueue
