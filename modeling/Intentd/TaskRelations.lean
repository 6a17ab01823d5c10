import Intentd.CycleSearches
import Intentd.TaskNotes

/-!
# Relations of tasks

A write of `dependsOn` is refused when it would close a cycle, which a depth-first search from the
written task finds. The task blocks of a note have their edges checked one at a time.
-/
namespace Intentd.TaskRelations

open List Relation TaskNotes CycleSearches KeyedTables

/-- The edges from a task. What is not a task has none. -/
def dependencies (notes : List Note) (id : String) : List String :=
  ((lookup Note.id id notes).bind Note.task).elim [] TaskMetadata.dependsOn

section Checks

variable (source : String) (newDeps : List String) (notes : List Note)

def graph : String → List String := Function.update (dependencies notes) source newDeps

def targets : Finset String :=
  (newDeps ++ notes.flatMap fun n => n.task.elim [] TaskMetadata.dependsOn).toFinset

/-- The loop of the search, for as many passes as the edges can need. -/
def cycleLoop : Option (Option (List String)) :=
  let out := graph source newDeps notes
  run out source (passesLeft out (targets newDeps notes) (start out source) + 1) (start out source)

def findDependencyCycle : Option (List String) := (cycleLoop source newDeps notes).join

end Checks

def withTask (w : Workspace) (id : String) (task : TaskMetadata) : Workspace where
  notes := update Note.id id (fun n => { n with task := some task }) w.notes
  nodup := by
    rw [keys_update (by simp)]
    exact w.nodup

/-- A write of `task_set_relations`: the dependencies stay, or pass the check as a list or, as those
of a task block do, one at a time. The other checks of a write only refuse more. -/
def Writes (w v : Workspace) : Prop :=
  ∃ n ∈ w.notes, ∃ task : TaskMetadata, v = withTask w n.id task ∧
    (task.dependsOn = dependencies w.notes n.id ∨
      findDependencyCycle n.id task.dependsOn w.notes = none ∨
      ∀ dep ∈ task.dependsOn, findDependencyCycle n.id [dep] w.notes = none)

variable {w v : Workspace} {source : String} {deps : List String}

theorem mem_targets (w : Workspace) (source : String) (deps : List String) (a b : String)
    (h : Edge (graph source deps w.notes) a b) : b ∈ targets deps w.notes := by
  rw [targets, mem_toFinset, mem_append]
  by_cases ha : a = source
  · rw [ha, Edge, graph, Function.update_self] at h
    exact .inl h
  · rw [Edge, graph, Function.update_of_ne ha, dependencies] at h
    cases hl : lookup Note.id a w.notes with
    | none => simp [hl] at h
    | some n =>
      rw [hl] at h
      exact .inr (mem_flatMap.mpr ⟨n, mem_of_lookup hl, h⟩)

theorem cycleLoop_answers (w : Workspace) (source : String) (deps : List String) :
    cycleLoop source deps w.notes = some (findDependencyCycle source deps w.notes) ∧
      Answers (graph source deps w.notes) source (findDependencyCycle source deps w.notes) := by
  obtain ⟨r, hr, han⟩ := inv_start.answers (mem_targets w source deps) (Nat.lt_succ_self _)
  have hlo : cycleLoop source deps w.notes = some r := hr
  rw [findDependencyCycle, hlo]
  exact ⟨rfl, han⟩

theorem findDependencyCycle_eq_none : findDependencyCycle source deps w.notes = none ↔
    ¬ TransGen (Edge (graph source deps w.notes)) source source := by
  have h := (cycleLoop_answers w source deps).2
  cases hr : findDependencyCycle source deps w.notes with
  | none =>
    rw [hr] at h
    exact iff_of_true rfl h
  | some path =>
    rw [hr] at h
    exact iff_of_false nofun (not_not_intro h.transGen)

/-- Checking the edges of a list one at a time is checking the list. -/
theorem findDependencyCycle_each : findDependencyCycle source deps w.notes = none ↔
    ∀ dep ∈ deps, findDependencyCycle source [dep] w.notes = none := by
  simp only [findDependencyCycle_eq_none, graph, transGen_update_self]
  simp

theorem dependencies_withTask {n : Note} (hn : n ∈ w.notes) (task : TaskMetadata) :
    dependencies (withTask w n.id task).notes = graph n.id task.dependsOn w.notes := by
  funext a
  rw [dependencies, withTask, lookup_update (by simp), graph]
  by_cases ha : a = n.id
  · rw [if_pos ha, ha, lookup_of_mem w.nodup hn, Function.update_self]
    rfl
  · rw [if_neg ha, Function.update_of_ne ha, dependencies]

theorem Writes.acyclic (hw : Writes w v) (h : Acyclic (dependencies w.notes)) :
    Acyclic (dependencies v.notes) := by
  obtain ⟨n, hn, task, rfl, hk | hc⟩ := hw
  · rwa [dependencies_withTask hn, graph, hk, Function.update_eq_self]
  · rw [dependencies_withTask hn]
    rw [← findDependencyCycle_each, or_self, findDependencyCycle_eq_none] at hc
    refine h.replaced (fun a ha b hab => ?_) hc
    rwa [Edge, graph, Function.update_of_ne ha] at hab

/-- The search ends, finds a cycle through the source just when there is one, and writes that pass
it keep the dependencies acyclic. -/
theorem dependency_cycles_exact (w : Workspace) :
    (∀ source deps, cycleLoop source deps w.notes = some (findDependencyCycle source deps w.notes) ∧
      ((findDependencyCycle source deps w.notes).isSome ↔
        TransGen (Edge (graph source deps w.notes)) source source) ∧
      ∀ path, findDependencyCycle source deps w.notes = some path →
        IsCycle (graph source deps w.notes) source path) ∧
    (Acyclic (dependencies w.notes) →
      ∀ v, ReflTransGen Writes w v → Acyclic (dependencies v.notes)) := by
  refine ⟨fun source deps => ?_, fun h v hwv => ?_⟩
  · obtain ⟨hlo, han⟩ := cycleLoop_answers w source deps
    refine ⟨hlo, ?_, fun path hp => by rwa [hp] at han⟩
    rw [← not_iff_not, ← findDependencyCycle_eq_none, Option.not_isSome_iff_eq_none]
  · induction hwv with
    | refl => exact h
    | tail _ hw ih => exact hw.acyclic ih

def twoTasks : Workspace := ⟨[⟨"a", none, "", some {}⟩, ⟨"b", none, "", some {}⟩], by decide⟩

theorem dependency_cycles_exact_two :
    ∃ v, Writes twoTasks v ∧ Acyclic (dependencies v.notes) ∧
      findDependencyCycle "b" ["a"] v.notes = some ["b", "a", "b"] := by
  have hac : Acyclic (dependencies twoTasks.notes) := by
    intro a ha
    obtain ⟨b, hab, -⟩ := TransGen.head'_iff.mp ha
    simp only [Edge, dependencies, KeyedTables.lookup, twoTasks, find?] at hab
    split at hab
    · cases hab
    · split at hab <;> cases hab
  have hw : Writes twoTasks (withTask twoTasks "a" { dependsOn := ["b"] }) :=
    ⟨⟨"a", none, "", some {}⟩, by decide, _, rfl, .inr (.inl (by decide +kernel))⟩
  exact ⟨_, hw, (dependency_cycles_exact twoTasks).2 hac _ (.single hw), by decide +kernel⟩

end Intentd.TaskRelations
