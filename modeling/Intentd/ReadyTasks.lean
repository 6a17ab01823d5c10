import Mathlib.Data.List.Perm.Subperm
import Mathlib.Order.Nat
import Intentd.TaskNotes

/-!
# The ready tasks of a workspace

`compute_ready_task_ids` walks the note tree from its root, children before their parent,
through the tasks that are neither complete nor cancelled, and keeps those whose task children
and dependencies are complete. The walk only enters what hangs under such tasks: a task under a
plain note or under a finished task is never listed.
-/
namespace Intentd.ReadyTasks

open List Relation TaskNotes

def isTerminalTaskStatus (status : TaskStatus) : Bool :=
  status = .complete || status = .cancelled

def isOpen (n : Note) : Bool :=
  n.task.any fun t => !isTerminalTaskStatus t.status

def peerOrder (n : Note) : ℤ :=
  (n.task.bind TaskMetadata.peerOrder).getD 0

def isBefore (a b : Note) : Bool :=
  peerOrder a < peerOrder b || (peerOrder a = peerOrder b && a.createdAt ≤ b.createdAt)

/-- The tasks under a parent that the walk enters, sorted. -/
def level (notes : List Note) (parent : Option String) : List Note :=
  (notes.filter fun n => isOpen n && n.parentId = parent).mergeSort isBefore

/-- The walk, down to a depth. A walk of as many levels as there are notes meets them all. -/
def traverse (notes : List Note) : ℕ → Option String → List Note
  | 0, _ => []
  | depth + 1, parent =>
    (level notes parent).flatMap fun child => traverse notes depth (some child.id) ++ [child]

def taskStatusById (notes : List Note) (id : String) : Option TaskStatus :=
  (KeyedTables.lookup Note.id id notes).bind fun n => n.task.map TaskMetadata.status

def unmetDependsOnIds (dependsOn : List String) (notes : List Note) : List String :=
  dependsOn.filter fun id => taskStatusById notes id ≠ some .complete

def childrenComplete (notes : List Note) (n : Note) : Bool :=
  notes.all fun c => c.parentId ≠ some n.id || c.task.all fun t => t.status = .complete

def isReady (notes : List Note) (n : Note) : Bool :=
  childrenComplete notes n && n.task.any fun t => (unmetDependsOnIds t.dependsOn notes).isEmpty

def computeReadyTaskIds (notes : List Note) : List String :=
  ((traverse notes notes.length none).filter (isReady notes)).map Note.id

/-- The second place is that of the parent of the first; `none` is the root. -/
def Up (w : Workspace) (a b : Option String) : Prop :=
  ∃ n ∈ w.notes, a = some n.id ∧ b = n.parentId

def NoParentCycle (w : Workspace) : Prop :=
  ∀ a, ¬ TransGen (Up w) a a

def OpenTask (w : Workspace) (id : String) : Prop :=
  ∃ n ∈ w.notes, n.id = id ∧ isOpen n

def Complete (w : Workspace) (id : String) : Prop :=
  ∃ n ∈ w.notes, n.id = id ∧ ∃ t, n.task = some t ∧ t.status = .complete

/-- A task that is neither complete nor cancelled, with its task children and its dependencies
complete. -/
def Ready (w : Workspace) (id : String) : Prop :=
  ∃ n ∈ w.notes, n.id = id ∧ ∃ t, n.task = some t ∧ t.status ≠ .complete ∧ t.status ≠ .cancelled ∧
    (∀ c ∈ w.notes, c.parentId = some id → ∀ u, c.task = some u → u.status = .complete) ∧
    ∀ dep ∈ t.dependsOn, Complete w dep

variable {w : Workspace} {a b p : Option String} {id : String} {m n x y : Note} {k : ℕ}
  {path : List String}

theorem mem_level : n ∈ level w.notes p ↔ n ∈ w.notes ∧ isOpen n ∧ n.parentId = p := by
  simp [level]

theorem taskStatusById_eq : taskStatusById w.notes id = some .complete ↔ Complete w id := by
  unfold taskStatusById Complete
  constructor
  · intro h
    obtain ⟨n, hn, ht⟩ := Option.bind_eq_some_iff.1 h
    obtain ⟨t, ht, hs⟩ := Option.map_eq_some_iff.1 ht
    exact ⟨n, KeyedTables.mem_of_lookup hn, KeyedTables.key_of_lookup hn, t, ht, hs⟩
  · rintro ⟨n, hn, rfl, t, ht, hs⟩
    simp [KeyedTables.lookup_of_mem w.nodup hn, ht, hs]

theorem ready_iff (hn : n ∈ w.notes) : Ready w n.id ↔ isOpen n ∧ isReady w.notes n := by
  have hun : ∀ deps, unmetDependsOnIds deps w.notes = [] ↔ ∀ d ∈ deps, Complete w d := by
    simp [unmetDependsOnIds, taskStatusById_eq]
  cases ht : n.task with
  | none =>
    refine iff_of_false ?_ (by simp [isOpen, ht])
    rintro ⟨m, hm, hid, t, hmt, -⟩
    cases Workspace.eq_of_id hm hn hid
    simp [ht] at hmt
  | some t =>
    simp only [isOpen, isReady, childrenComplete, isTerminalTaskStatus, ht, Option.any_some,
      Bool.and_eq_true, List.isEmpty_iff, hun, all_eq_true]
    constructor
    · rintro ⟨m, hm, hid, u, hmt, hc, hx, hk, hd⟩
      cases Workspace.eq_of_id hm hn hid
      cases hmt.symm.trans ht
      refine ⟨by simp [hc, hx], fun c hcm => ?_, hd⟩
      cases hct : c.task <;> grind
    · rintro ⟨hs, hk, hd⟩
      refine ⟨n, hn, rfl, t, ht, by simp_all, by simp_all, fun c hcm hp u hu => ?_, hd⟩
      simpa [hp, hu] using hk c hcm

theorem Up.of_level (h : n ∈ level w.notes p) : Up w (some n.id) p :=
  ⟨n, (mem_level.1 h).1, rfl, (mem_level.1 h).2.2.symm⟩

theorem up_unique : Relator.RightUnique (Up w) := by
  rintro a b c ⟨n, hn, rfl, rfl⟩ ⟨m, hm, hid, rfl⟩
  cases Workspace.eq_of_id hm hn (by simpa using hid.symm)
  rfl

theorem isOpen_of_mem_traverse (h : x ∈ traverse w.notes k p) :
    x ∈ w.notes ∧ isOpen x ∧ TransGen (Up w) (some x.id) p := by
  induction k generalizing p with
  | zero => cases h
  | succ k ih =>
    obtain ⟨c, hc, hx⟩ := mem_flatMap.1 h
    obtain hx | hx := mem_append.1 hx
    · exact ⟨(ih hx).1, (ih hx).2.1, (ih hx).2.2.tail (.of_level hc)⟩
    · cases mem_singleton.1 hx
      exact ⟨(mem_level.1 hc).1, (mem_level.1 hc).2.1, .single (.of_level hc)⟩

theorem openTask_of_mem_traverse (h : x ∈ traverse w.notes k p)
    (ha : TransGen (Up w) (some x.id) (some id)) :
    OpenTask w id ∨ ReflTransGen (Up w) p (some id) := by
  induction k generalizing p with
  | zero => cases h
  | succ k ih =>
    obtain ⟨c, hc, hx⟩ := mem_flatMap.1 h
    have hup : ∀ {b}, TransGen (Up w) (some c.id) b → ReflTransGen (Up w) p b := by
      intro b hb
      obtain ⟨q, hq, hqb⟩ := TransGen.head'_iff.1 hb
      exact up_unique hq (.of_level hc) ▸ hqb
    obtain hx | hx := mem_append.1 hx
    · obtain ho | hup' := ih hx
      · exact .inl ho
      · obtain heq | hb := reflTransGen_iff_eq_or_transGen.1 hup'
        · exact .inl ⟨c, (mem_level.1 hc).1, by simpa using heq.symm, (mem_level.1 hc).2.1⟩
        · exact .inr (hup hb)
    · cases mem_singleton.1 hx
      exact .inr (hup ha)

theorem mem_traverse_mono {d : ℕ} (hkd : k ≤ d) (h : x ∈ traverse w.notes k p) :
    x ∈ traverse w.notes d p := by
  induction k generalizing p d with
  | zero => cases h
  | succ k ih =>
    obtain ⟨d, rfl⟩ := Nat.exists_eq_succ_of_ne_zero (Nat.ne_zero_of_lt hkd)
    obtain ⟨c, hc, hx⟩ := mem_flatMap.1 h
    refine mem_flatMap.2 ⟨c, hc, mem_append.2 ?_⟩
    exact (mem_append.1 hx).imp_left (ih (Nat.le_of_succ_le_succ hkd))

variable (h : NoParentCycle w)
include h

theorem not_reaches_child (hc : n ∈ level w.notes p) : ¬ ReflTransGen (Up w) p (some n.id) :=
  fun hp => h p (.tail' hp (.of_level hc))

/-- Below different children of one parent there is nothing in common. -/
theorem eq_of_below (hm : m ∈ level w.notes p) (hn : n ∈ level w.notes p)
    (ha : ReflTransGen (Up w) a (some m.id)) (hb : ReflTransGen (Up w) a (some n.id)) : m = n := by
  have hup : ∀ {m n}, m ∈ level w.notes p → n ∈ level w.notes p →
      ReflTransGen (Up w) (some m.id) (some n.id) → m = n := by
    intro m n hm hn hmn
    obtain heq | ⟨q, hq, hqn⟩ := ReflTransGen.cases_head hmn
    · exact Workspace.eq_of_id (mem_level.1 hm).1 (mem_level.1 hn).1 (by simpa using heq)
    · exact absurd (up_unique hq (.of_level hm) ▸ hqn) (not_reaches_child h hn)
  obtain hmn | hnm := ReflTransGen.total_of_right_unique up_unique ha hb
  · exact hup hm hn hmn
  · exact (hup hn hm hnm).symm

/-- What comes later in the walk is neither the same task nor below it. -/
theorem traverse_pairwise : (traverse w.notes k p).Pairwise fun x y =>
    ¬ ReflTransGen (Up w) (some y.id) (some x.id) := by
  induction k generalizing p with
  | zero => exact .nil
  | succ k ih =>
    have hno : (level w.notes p).Nodup :=
      ((w.nodup.of_map Note.id).filter _).perm (mergeSort_perm _ _).symm
    have hb : ∀ {c x}, x ∈ traverse w.notes k (some c.id) ++ [c] →
        ReflTransGen (Up w) (some x.id) (some c.id) := by
      intro c x hx
      obtain hx | hx := mem_append.1 hx
      · exact (isOpen_of_mem_traverse hx).2.2.to_reflTransGen
      · cases mem_singleton.1 hx
        exact .refl
    rw [traverse, pairwise_flatMap]
    constructor
    · intro c hc
      refine pairwise_append.2 ⟨ih, pairwise_singleton _ _, fun x hx y hy hyx => ?_⟩
      cases mem_singleton.1 hy
      exact h _ ((isOpen_of_mem_traverse hx).2.2.trans_left hyx)
    · refine hno.imp_of_mem fun hm hn hne x hx y hy hyx => hne ?_
      exact eq_of_below h hm hn (hyx.trans (hb hx)) (hb hy)

omit h in
theorem length_lt (hn : n ∈ w.notes) (hp : path.Nodup) (hsub : path ⊆ w.notes.map Note.id)
    (hnew : n.id ∉ path) : path.length < w.notes.length := by
  have hle := (subperm_of_subset (nodup_cons.2 ⟨hnew, hp⟩)
    (cons_subset.2 ⟨mem_map_of_mem hn, hsub⟩)).length_le
  rwa [length_cons, length_map] at hle

/-- Beyond as many levels as there are notes off the way from the root there is nothing. -/
theorem traverse_succ (hp : path.Nodup) (hsub : path ⊆ w.notes.map Note.id)
    (hway : ∀ a ∈ path, ReflTransGen (Up w) p (some a)) (hk : w.notes.length ≤ k + path.length) :
    traverse w.notes (k + 1) p = traverse w.notes k p := by
  induction k generalizing p path with
  | zero =>
    refine flatMap_eq_nil_iff.2 fun c hc => ?_
    have hnew : c.id ∉ path := fun hmem => not_reaches_child h hc (hway _ hmem)
    have := length_lt (mem_level.1 hc).1 hp hsub hnew
    omega
  | succ k ih =>
    rw [traverse, traverse]
    refine flatMap_congr fun c hc => ?_
    have hnew : c.id ∉ path := fun hmem => not_reaches_child h hc (hway _ hmem)
    have hw' : ∀ a ∈ c.id :: path, ReflTransGen (Up w) (some c.id) (some a) := by
      rintro a (_ | ⟨_, ha⟩)
      · exact .refl
      · exact .head (.of_level hc) (hway a ha)
    rw [ih (nodup_cons.2 ⟨hnew, hp⟩)
      (cons_subset.2 ⟨mem_map_of_mem (mem_level.1 hc).1, hsub⟩) hw' (by simp; omega)]

theorem traverse_enough (hk : w.notes.length ≤ k) :
    traverse w.notes k none = traverse w.notes w.notes.length none := by
  induction k, hk using Nat.le_induction with
  | base => rfl
  | succ k hk ih => exact (traverse_succ h nodup_nil (nil_subset _) (by simp) (by simpa)).trans ih

/-- A task is met from the root if the walk enters all its ancestors. The way up takes no note
twice. -/
theorem mem_traverse_root (hn : n ∈ w.notes)
    (hup : ∀ id, TransGen (Up w) (some n.id) (some id) → OpenTask w id)
    (hx : ∃ d, x ∈ traverse w.notes d n.parentId) (hpa : path.Nodup)
    (hsub : path ⊆ w.notes.map Note.id) (hway : ∀ a ∈ path, TransGen (Up w) (some a) (some n.id))
    (hk : w.notes.length ≤ k + path.length) : ∃ d, x ∈ traverse w.notes d none := by
  induction k generalizing n path with
  | zero =>
    have := length_lt hn hpa hsub fun hmem => h _ (hway _ hmem)
    omega
  | succ k ih =>
    cases hp : n.parentId with
    | none => exact hp ▸ hx
    | some q =>
      have hs : Up w (some n.id) (some q) := ⟨n, hn, rfl, hp.symm⟩
      obtain ⟨m, hm, rfl, ho⟩ := hup q (.single hs)
      obtain ⟨d, hd⟩ := hp ▸ hx
      refine ih hm (fun id hid => hup id (.head hs hid))
        ⟨d + 1, mem_flatMap.2 ⟨m, mem_level.2 ⟨hm, ho, rfl⟩, mem_append_left _ hd⟩⟩
        (nodup_cons.2 ⟨fun hmem => h _ (hway _ hmem), hpa⟩)
        (cons_subset.2 ⟨mem_map_of_mem hn, hsub⟩) ?_ (by simp; omega)
      rintro a (_ | ⟨_, ha⟩)
      · exact .single hs
      · exact (hway a ha).tail hs

theorem mem_traverse_iff (hn : n ∈ w.notes) (ho : isOpen n) :
    n ∈ traverse w.notes w.notes.length none ↔
      ∀ id, TransGen (Up w) (some n.id) (some id) → OpenTask w id := by
  constructor
  · intro hmem id hid
    refine (openTask_of_mem_traverse hmem hid).resolve_right fun hr => ?_
    obtain heq | ⟨q, ⟨m, -, hm, -⟩, -⟩ := ReflTransGen.cases_head hr
    · cases heq
    · cases hm
  · intro hup
    have hs : n ∈ traverse w.notes 1 n.parentId :=
      mem_flatMap.2 ⟨n, mem_level.2 ⟨hn, ho, rfl⟩, mem_append_right _ (mem_singleton_self n)⟩
    obtain ⟨d, hd⟩ := mem_traverse_root h hn hup ⟨1, hs⟩ nodup_nil (nil_subset _) (by simp) le_rfl
    obtain hle | hle := Nat.le_total d w.notes.length
    · exact mem_traverse_mono hle hd
    · exact traverse_enough h hle ▸ hd

/-- The ready list has ready tasks only, each once and after what is below it. It has all of them
if and only if no ready task hangs under a plain note, a finished task or a missing note. -/
theorem ready_tasks_exact :
    (∀ k ≥ w.notes.length, traverse w.notes k none = traverse w.notes w.notes.length none) ∧
    (computeReadyTaskIds w.notes).Nodup ∧
    (computeReadyTaskIds w.notes).Pairwise (fun a b => ¬ TransGen (Up w) (some b) (some a)) ∧
    (∀ id ∈ computeReadyTaskIds w.notes, Ready w id) ∧
    ((∀ id, Ready w id → id ∈ computeReadyTaskIds w.notes) ↔
      ∀ id a, Ready w id → TransGen (Up w) (some id) (some a) → OpenTask w a) := by
  have hp : (computeReadyTaskIds w.notes).Pairwise
      fun a b => ¬ ReflTransGen (Up w) (some b) (some a) :=
    pairwise_map.2 ((traverse_pairwise h).filter _)
  have hl : ∀ {n}, n ∈ w.notes → Ready w n.id → (n.id ∈ computeReadyTaskIds w.notes ↔
        ∀ a, TransGen (Up w) (some n.id) (some a) → OpenTask w a) := by
    intro n hn hr
    rw [← mem_traverse_iff h hn ((ready_iff hn).1 hr).1]
    constructor
    · intro hid
      obtain ⟨m, hm, hid⟩ := mem_map.1 hid
      have hmem := (mem_filter.1 hm).1
      exact Workspace.eq_of_id (isOpen_of_mem_traverse hmem).1 hn hid ▸ hmem
    · exact fun hmem => mem_map_of_mem (mem_filter.2 ⟨hmem, ((ready_iff hn).1 hr).2⟩)
  refine ⟨fun k hk => traverse_enough h hk, hp.imp ?_, hp.imp ?_, ?_, ?_, ?_⟩
  · rintro a b hab rfl
    exact hab .refl
  · exact fun hab hba => hab hba.to_reflTransGen
  · intro id hid
    obtain ⟨n, hn, rfl⟩ := mem_map.1 hid
    obtain ⟨hmem, ht⟩ := mem_filter.1 hn
    obtain ⟨hn, ho, -⟩ := isOpen_of_mem_traverse hmem
    exact (ready_iff hn).2 ⟨ho, ht⟩
  · intro hall id a hr
    have ⟨n, hn, hid, _⟩ := hr
    cases hid
    exact (hl hn hr).1 (hall _ hr) a
  · intro hup id hr
    have ⟨n, hn, hid, _⟩ := hr
    cases hid
    exact (hl hn hr).2 fun a => hup _ a hr

omit h

theorem noParentCycle_of_rank (rank : Option String → ℕ)
    (hr : ∀ n ∈ w.notes, rank n.parentId < rank (some n.id)) : NoParentCycle w := by
  intro a hc
  have hlt : ∀ {b}, TransGen (Up w) a b → rank b < rank a := by
    intro b hb
    induction hb with
    | single hab => obtain ⟨n, hn, rfl, rfl⟩ := hab; exact hr n hn
    | tail _ hbc ih => obtain ⟨n, hn, rfl, rfl⟩ := hbc; exact (hr n hn).trans ih
  exact lt_irrefl _ (hlt hc)

/-- A task under a note, which is a task itself or is none. -/
def shipping (parent : Option TaskMetadata) : Workspace where
  notes := [⟨"spec", none, "", parent⟩, ⟨"ship", some "spec", "", some {}⟩]
  nodup := by simp

theorem shipping_noParentCycle (parent : Option TaskMetadata) : NoParentCycle (shipping parent) :=
  noParentCycle_of_rank (fun a => if a = none then 0 else if a = some "spec" then 1 else 2)
    (by simp [shipping])

theorem shipping_ready (parent : Option TaskMetadata) : Ready (shipping parent) "ship" :=
  ⟨⟨"ship", some "spec", "", some {}⟩, by simp [shipping], rfl, {}, rfl, by decide, by decide,
    by simp [shipping], by simp⟩

/-- Under a task that is open it is listed. -/
theorem ready_tasks_exact_under_task : "ship" ∈ computeReadyTaskIds (shipping (some {})).notes := by
  refine (ready_tasks_exact (shipping_noParentCycle _)).2.2.2.2.2 ?_ "ship" (shipping_ready _)
  rintro id a - ha
  obtain ⟨b, -, n, hn, -, hp⟩ := TransGen.tail'_iff.1 ha
  refine ⟨⟨"spec", none, "", some {}⟩, by simp [shipping], ?_, rfl⟩
  simp [shipping] at hn
  grind

/-- Under a plain note, which is where block conversion puts it, it is not listed. -/
theorem task_under_note_not_listed : NoParentCycle (shipping none) ∧ Ready (shipping none) "ship" ∧
      computeReadyTaskIds (shipping none).notes = [] :=
  ⟨shipping_noParentCycle none, shipping_ready none, by
    simp [computeReadyTaskIds, shipping, traverse, level, isOpen]⟩

end Intentd.ReadyTasks
