import Intentd.DeleteSteps

/-!
# Every attempt has one owner

The shapes the histories of attempts can have say who is handed a guard and when a
closure runs; the entries of the map say which attempts are pending.
-/
namespace Intentd.DeleteOwnership
open OwnedDeletes AttemptLives Relation

variable {s : System}

theorem inv_of_run (h : ReflTransGen Step .initial s) : Inv s := by
  induction h with
  | refl => exact .initial
  | tail _ hs ih => exact ih.step hs

def isHanded : Event → Bool
  | .handed _ _ => true
  | _ => false

/-- An attempt is pending while its owner prepares it, and while it is armed and its
guard was handed to nobody. -/
def Pending (s : System) (a : ℕ) : Prop :=
  (∃ c, prepares (s.callers c) = some a) ∨
    (∃ d guard, .armed d guard ∈ s.events a) ∧ ∀ holder claim, .handed holder claim ∉ s.events a

variable {a d : ℕ} {guard : RepositoryPendingDeleteGuard}

theorem begun_of_life {rest : List Event}
    (h : Life s a (.armed d guard :: rest)) : s.begun guard.id = some a := by
  cases h with
  | armed hb | handed hb hh | ran hb ht => exact hb

section Lives

variable {events : List Event} (h : Life s a events) {claim : PendingDeleteClaim}

include h

theorem countP_isHanded_le : events.countP isHanded ≤ 1 := by
  cases h <;> simp [isHanded, List.countP_cons]

theorem armed_of_mem (hmem : .armed d guard ∈ events) :
    ∃ rest, events = .armed d guard :: rest := by
  cases h <;> simp_all

theorem handed_of_mem {ho : Holder} (hmem : .handed ho claim ∈ events) :
    claim.subject = (s.attempts a).subject ∧ HolderOf s a ho ∧
      ∃ d rest, events = .armed d claim.guard :: .handed ho claim :: rest := by
  cases h <;> simp_all [HolderOf]

theorem ran_of_mem (hmem : .ran claim ∈ events) :
    ∃ i d, events = [.armed d claim.guard, .handed (.timer i) claim, .ran claim] := by
  cases h <;> simp_all

theorem eq_armed_of_mem (hmem : .armed d guard ∈ events)
    (hh : ∀ ho claim, .handed ho claim ∉ events) : events = [.armed d guard] := by
  cases h <;> simp_all

end Lives

theorem entry_of_pending (h : Inv s) (ha : Pending s a) :
    ∃ entry, s.entries (s.key a) = some entry ∧ entry.attempt = a := by
  rcases ha with ⟨c, hc⟩ | ⟨⟨d, guard, hmem⟩, hh⟩
  · have hok := h.caller c
    have hp : ∀ owner : Owner, Prepares s owner →
        ∃ entry, s.entries (s.key owner.attempt) = some entry ∧ entry.attempt = owner.attempt :=
      fun owner hp => ⟨_, hp.entry, rfl⟩
    cases hph : s.callers c with
    | beginning owner delayMs =>
      rw [hph] at hok hc
      cases hc
      exact hp owner hok
    | guarded owner delayMs | spawned owner delayMs =>
      rw [hph] at hok hc
      cases hc
      exact hp owner hok.1
    | dropping owner outcome =>
      rw [hph] at hok hc
      cases har : owner.armed with
      | true => simp [prepares, har] at hc
      | false =>
        simp only [prepares, har, Bool.false_eq_true, if_false, Option.some.injEq] at hc
        exact hc ▸ hp owner (hok.1 har).1
    | _ => simp [hph, prepares] at hc
  · have he := eq_armed_of_mem (h.attempt a).life hmem hh
    obtain ⟨entry, hen, rfl⟩ := (h.attempt a).kept d guard he
    exact ⟨_, hen, rfl⟩

theorem joined_returns (h : Inv s) {c : ℕ} (hc : s.callers c = .joined a) (ha : Armed s a d) :
    ∃ t, ReflTransGen Step s t ∧ t.callers c = .finished (some (.scheduled a d false)) := by
  have hre : ∀ u : System, u.callers c = .joined a → (u.attempts a).ready = .armed d →
      ∃ t, ReflTransGen Step u t ∧ t.callers c = .finished (some (.scheduled a d false)) := by
    intro u hu hr
    refine ⟨_, .single (.joined hu (by simp [hr])), ?_⟩
    rw [System.setCaller_self, hr]
    rfl
  rcases (h.attempt a).published d ha with hr | ⟨c', owner, i, deadline, hc', rfl⟩
  · exact hre s hc hr
  · have hne : c ≠ c' := by
      rintro rfl
      simp [hc] at hc'
    obtain ⟨t, hrun, ht⟩ := hre ((s.sendReplace owner.attempt (.armed d)).setCaller c'
      (.published owner i d deadline)) ((System.setCaller_of_ne hne).trans hc)
      (congrArg Attempt.ready System.sendReplace_self)
    exact ⟨t, .head (.publish hc') hrun, ht⟩

structure OneOwner (s : System) : Prop where
  /-- An attempt's guard is handed out at most once, and it is the one it was armed with. -/
  handed_once : ∀ a, (s.events a).countP isHanded ≤ 1
  handed_guard : ∀ a holder claim, .handed holder claim ∈ s.events a →
    claim.subject = (s.attempts a).subject ∧ ∃ d, .armed d claim.guard ∈ s.events a
  guard_once : ∀ a b holder holder' claim claim', .handed holder claim ∈ s.events a →
    .handed holder' claim' ∈ s.events b → claim.guard = claim'.guard → a = b
  /-- If a cancel returned `true`, the deletion closure of its attempt does not run. -/
  cancel_stops : ∀ c a, s.callers c = .finished (some (.cancelled a)) →
    ∀ claim, .ran claim ∉ s.events a
  ran_handed : ∀ a claim, .ran claim ∈ s.events a → ∃ i, .handed (.timer i) claim ∈ s.events a
  timer_own : ∀ a i claim, .handed (.timer i) claim ∈ s.events a → TimerOf s i a
  one_pending : ∀ a b, Pending s a → Pending s b → s.key a = s.key b → a = b
  /-- An attempt is armed with one deadline, and a schedule returns that one. -/
  one_deadline : ∀ a d d' guard guard', .armed d guard ∈ s.events a →
    .armed d' guard' ∈ s.events a → d = d'
  scheduled_deadline : ∀ c a d newlyArmed,
    s.callers c = .finished (some (.scheduled a d newlyArmed)) →
      ∃ guard, .armed d guard ∈ s.events a
  join_fails : ∀ c a error, s.callers c = .finished (some (.joinFailed a error)) →
    ∀ d guard, .armed d guard ∉ s.events a
  join_returns : ∀ c a d guard, s.callers c = .joined a → .armed d guard ∈ s.events a →
    ∃ t, ReflTransGen Step s t ∧ t.callers c = .finished (some (.scheduled a d false))
  assertion : ∀ c owner, s.callers c ≠ .assertionFailed owner

/-- In every interleaving of schedules, takes, cancels and immediate deletes with timers
and dropped callers, every attempt has one owner at a time. -/
theorem attempts_have_one_owner (hrun : ReflTransGen Step .initial s) : OneOwner s := by
  have h := inv_of_run hrun
  constructor
  · exact fun a => countP_isHanded_le (h.attempt a).life
  · intro a ho claim hmem
    obtain ⟨hs, -, d, rest, he⟩ := handed_of_mem (h.attempt a).life hmem
    exact ⟨hs, d, by simp [he]⟩
  · intro a b ho ho' claim claim' ha hb hg
    obtain ⟨-, -, d, rest, he⟩ := handed_of_mem (h.attempt a).life ha
    obtain ⟨-, -, d', rest', he'⟩ := handed_of_mem (h.attempt b).life hb
    have hbe := begun_of_life (he ▸ (h.attempt a).life)
    have hb' := begun_of_life (he' ▸ (h.attempt b).life)
    rw [hg] at hbe
    exact Option.some.inj (hbe.symm.trans hb')
  · -- the guard of a cancelled attempt went to the canceller, not to the timer
    intro c a hc claim hran
    obtain ⟨claim', d, guard, rest, he⟩ := h.callerAt hc
    obtain ⟨i, d', he'⟩ := ran_of_mem (h.attempt a).life hran
    rw [he] at he'
    simp at he'
  · intro a claim hmem
    obtain ⟨i, d, he⟩ := ran_of_mem (h.attempt a).life hmem
    exact ⟨i, by simp [he]⟩
  · exact fun a i claim hmem => (handed_of_mem (h.attempt a).life hmem).2.1
  · intro a b ha hb hkey
    obtain ⟨entry, hen, rfl⟩ := entry_of_pending h ha
    obtain ⟨entry', hen', rfl⟩ := entry_of_pending h hb
    rw [hkey, hen'] at hen
    rw [Option.some.inj hen]
  · intro a d d' guard guard' hd hd'
    obtain ⟨rest, he⟩ := armed_of_mem (h.attempt a).life hd
    obtain ⟨rest', he'⟩ := armed_of_mem (h.attempt a).life hd'
    rw [he] at he'
    exact (Event.armed.inj (List.cons.inj he').1).1
  · intro c a d newlyArmed hc
    obtain ⟨guard, rest, he⟩ := (h.attempt a).armed d (h.callerAt hc)
    exact ⟨guard, by simp [he]⟩
  · intro c a error hc d guard hmem
    have he := (h.attempt a).abandoned (h.callerAt hc)
    simp [he] at hmem
  · intro c a d guard hc hmem
    obtain ⟨rest, he⟩ := armed_of_mem (h.attempt a).life hmem
    exact joined_returns h hc ⟨guard, rest, he⟩
  · exact fun c owner hc => h.callerAt hc

/-- A schedule arms an attempt, a second one joins it, and a cancel takes it. -/
theorem attempts_have_one_owner_cancelled :
    ∃ s, ReflTransGen Step .initial s ∧ s.callers 1 = .finished (some (.scheduled 0 5000 false)) ∧
      s.callers 2 = .finished (some (.cancelled 0)) ∧ OneOwner s := by
  have hrun := ReflTransGen.refl (r := Step) (a := .initial)
    |>.tail (.schedule (c := 0) (.workspace "w") 5000 rfl)
    |>.tail (.schedule (c := 1) (.workspace "w") 9000 rfl)
    |>.tail (.begin (c := 0) rfl)
    |>.tail (.spawn (c := 0) rfl)
    |>.tail (.arm (c := 0) rfl)
    |>.tail (.publish (c := 0) rfl)
    |>.tail (.joined (c := 1) rfl (by decide))
    |>.tail (.take (c := 2) .cancel (.workspace "w") rfl)
    |>.tail (.prepared (c := 2) rfl rfl)
    |>.tail (.takeFor (c := 2) rfl)
    |>.tail (.abortTimer (c := 2) rfl)
    |>.tail (.settle (c := 2) rfl)
  exact ⟨_, hrun, rfl, rfl, attempts_have_one_owner hrun⟩

end Intentd.DeleteOwnership
