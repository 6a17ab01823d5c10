import Mathlib.Order.Nat
import Intentd.OwnedDeletes

/-!
# The life of an attempt

The history of an attempt is a word over its events, and only five shapes occur: nothing
yet, armed, armed and handed out, that followed by one run of the closure of the timer it
was handed to, and abandoned. The shape decides the claims about guards, cancels and
timers; what keeps it is that a step acts on one attempt only, and that the entry under
the attempt's key, or the one preparation owner it has, says which shape it is in.
-/
namespace Intentd.AttemptLives
open OwnedDeletes

/-- The attempt of a preparation owner whose entry is in the map but not armed. -/
@[simp] def prepares : Phase → Option ℕ
  | .beginning owner _ | .guarded owner _ | .spawned owner _ => some owner.attempt
  | .dropping owner _ => if owner.armed then none else some owner.attempt
  | _ => none

/-- The attempt of a preparation owner that did not arm it. -/
@[simp] def unarmed : Phase → Option ℕ
  | .abandoning owner _ _ => some owner.attempt
  | phase => prepares phase

variable {s t : System} {x : ℕ} {c a : ℕ} {phase : Phase}

def Armed (s : System) (a deleteAt : ℕ) : Prop :=
  ∃ guard rest, s.events a = .armed deleteAt guard :: rest

def Handed (s : System) (a : ℕ) (holder : Holder) (claim : PendingDeleteClaim) : Prop :=
  ∃ deleteAt guard rest, s.events a = .armed deleteAt guard :: .handed holder claim :: rest

def TimerOf (s : System) (i a : ℕ) : Prop :=
  ∃ timer, s.timers i = some timer ∧ timer.attempt = a

def HolderOf (s : System) (a : ℕ) : Holder → Prop
  | .timer i => TimerOf s i a
  | .caller _ => True

inductive Life (s : System) (a : ℕ) : List Event → Prop
  | preparing : Life s a []
  | armed {deleteAt : ℕ} {guard : RepositoryPendingDeleteGuard}
      (hbegun : s.begun guard.id = some a) : Life s a [.armed deleteAt guard]
  | handed {deleteAt : ℕ} {guard : RepositoryPendingDeleteGuard} {holder : Holder}
      (hbegun : s.begun guard.id = some a) (hholder : HolderOf s a holder) :
      Life s a [.armed deleteAt guard, .handed holder ⟨(s.attempts a).subject, guard⟩]
  | ran {deleteAt i : ℕ} {guard : RepositoryPendingDeleteGuard}
      (hbegun : s.begun guard.id = some a) (htimer : TimerOf s i a) :
      Life s a [.armed deleteAt guard, .handed (.timer i) ⟨(s.attempts a).subject, guard⟩,
        .ran ⟨(s.attempts a).subject, guard⟩]
  | abandoned : Life s a [.abandoned]

structure AttemptOk (s : System) (a : ℕ) : Prop where
  life : Life s a (s.events a)
  armed : ∀ d, (s.attempts a).ready = .armed d → Armed s a d
  abandoned : (s.attempts a).ready = .abandoned → s.events a = [.abandoned]
  published : ∀ d, Armed s a d → (s.attempts a).ready = .armed d ∨
    ∃ c owner i deadline, s.callers c = .inserted owner i d deadline ∧ owner.attempt = a
  kept : ∀ d guard, s.events a = [.armed d guard] →
    ∃ entry, s.entries (s.key a) = some (.armed entry) ∧ entry.attempt = a
  fresh : s.nextAttempt ≤ a → s.events a = []

structure EntryOk (s : System) (k : OwnedKey) (entry : OwnedEntry) : Prop where
  key : s.key entry.attempt = k
  lt : entry.attempt < s.nextAttempt
  preparing : ∀ a, entry = .preparing a → s.events a = []
  armed : ∀ armed, entry = .armed armed → ∃ guard, armed.guard = some guard ∧
    s.events armed.attempt = [.armed armed.deleteAt guard]

structure Prepares (s : System) (owner : Owner) : Prop where
  lt : owner.attempt < s.nextAttempt
  armed : owner.armed = false
  entry : s.entries (s.key owner.attempt) = some (.preparing owner.attempt)

def Guarded (s : System) (owner : Owner) : Prop :=
  ∃ guard, owner.guard = some guard ∧ s.begun guard.id = some owner.attempt

def IsFailure (outcome : Option Outcome) : Prop :=
  outcome = none ∨ ∃ error, outcome = some (.failed error)

/-- What an outcome says about the attempt the call worked on. -/
def OutcomeOk (s : System) (c : ℕ) : Outcome → Prop
  | .scheduled a d _ => (s.attempts a).ready = .armed d
  | .joinFailed a _ => (s.attempts a).ready = .abandoned
  | .cancelled a => ∃ claim, Handed s a (.caller c) claim
  | .claimed (some a) claim => Handed s a (.caller c) claim
  | _ => True

def CallerOk (s : System) (c : ℕ) : Phase → Prop
  | .joined a | .waiting _ _ a | .taking _ _ a => a < s.nextAttempt
  | .beginning owner _ => Prepares s owner
  | .guarded owner _ => Prepares s owner ∧ Guarded s owner
  | .spawned owner _ => Prepares s owner ∧ Guarded s owner ∧
      ∃ i, owner.timer = some i ∧ TimerOf s i owner.attempt
  | .assertionFailed _ => False
  | .inserted owner _ d _ => owner.attempt < s.nextAttempt ∧ Armed s owner.attempt d
  | .published owner _ d _ => owner.attempt < s.nextAttempt ∧
      (s.attempts owner.attempt).ready = .armed d
  | .dropping owner outcome => (owner.armed = false → Prepares s owner ∧ IsFailure outcome) ∧
      (owner.armed = true → ∃ d, outcome = some (.scheduled owner.attempt d true) ∧
        (s.attempts owner.attempt).ready = .armed d)
  | .abandoning owner _ outcome => owner.attempt < s.nextAttempt ∧ s.events owner.attempt = [] ∧
      (∀ k entry, s.entries k = some entry → entry.attempt ≠ owner.attempt) ∧ IsFailure outcome
  | .took _ a claim _ | .settling a claim => Handed s a (.caller c) claim
  | .finished (some outcome) => OutcomeOk s c outcome
  | .idle | .opening _ | .finished none => True

structure TimerOk (s : System) (i : ℕ) (timer : DeleteTimer) : Prop where
  lt : i < s.nextTimer
  attempt_lt : timer.attempt < s.nextAttempt
  claimed : ∀ claim, timer.phase = .claimed claim → ∃ d guard,
    s.events timer.attempt = [.armed d guard, .handed (.timer i) claim]

structure Inv (s : System) : Prop where
  attempt : ∀ a, AttemptOk s a
  entry : ∀ k entry, s.entries k = some entry → EntryOk s k entry
  caller : ∀ c, CallerOk s c (s.callers c)
  unique : ∀ c c' a, unarmed (s.callers c) = some a → unarmed (s.callers c') = some a → c = c'
  timer : ∀ i timer, s.timers i = some timer → TimerOk s i timer
  begun_lt : ∀ g a, s.begun g = some a → g < s.nextGuard

/-- A step that acts on no attempt but `x`, and only adds to the history of that one. -/
structure Evolves (s t : System) (x : ℕ) : Prop where
  next_le : s.nextAttempt ≤ t.nextAttempt
  subject : ∀ a < s.nextAttempt, (t.attempts a).subject = (s.attempts a).subject
  begun : ∀ g a, s.begun g = some a → t.begun g = some a
  timers : ∀ i a, TimerOf s i a → TimerOf t i a
  events : ∀ a ≠ x, t.events a = s.events a
  ready : ∀ a ≠ x, (t.attempts a).ready = (s.attempts a).ready
  entries : ∀ k entry, entry.attempt ≠ x → (t.entries k = some entry ↔ s.entries k = some entry)
  grows : s.events x <+: t.events x
  armed : ∀ d, (s.attempts x).ready = .armed d → (t.attempts x).ready = .armed d
  abandoned : (s.attempts x).ready = .abandoned → (t.attempts x).ready = .abandoned

variable {d : ℕ}

namespace Evolves

variable (h : Evolves s t x) {a : ℕ} {c : ℕ} {owner : Owner}

include h

theorem events_prefix (a : ℕ) : s.events a <+: t.events a := by
  by_cases ha : a = x
  · exact ha ▸ h.grows
  · exact (h.events a ha).symm ▸ List.prefix_rfl

theorem ready_armed (hd : (s.attempts a).ready = .armed d) : (t.attempts a).ready = .armed d := by
  by_cases ha : a = x
  · subst ha
    exact h.armed d hd
  · rw [h.ready a ha, hd]

theorem ready_abandoned (hd : (s.attempts a).ready = .abandoned) :
    (t.attempts a).ready = .abandoned := by
  by_cases ha : a = x
  · subst ha
    exact h.abandoned hd
  · rw [h.ready a ha, hd]

theorem key (ha : a < s.nextAttempt) : t.key a = s.key a := by
  unfold System.key
  rw [h.subject a ha]

theorem armed_of (hd : Armed s a d) : Armed t a d := by
  obtain ⟨guard, rest, he⟩ := hd
  obtain ⟨more, hm⟩ := h.events_prefix a
  exact ⟨guard, rest ++ more, by rw [← hm, he]; rfl⟩

theorem handed_of {ho : Holder} {claim : PendingDeleteClaim} (hd : Handed s a ho claim) :
    Handed t a ho claim := by
  obtain ⟨d, guard, rest, he⟩ := hd
  obtain ⟨more, hm⟩ := h.events_prefix a
  exact ⟨d, guard, rest ++ more, by rw [← hm, he]; rfl⟩

theorem life_of (ha : a < s.nextAttempt) {events : List Event} (hl : Life s a events) :
    Life t a events := by
  have hs := h.subject a ha
  cases hl with
  | preparing => exact .preparing
  | armed hb => exact .armed (h.begun _ _ hb)
  | handed hb hh =>
    rename_i ho
    rw [← hs]
    refine .handed (h.begun _ _ hb) ?_
    cases ho with
    | timer i => exact h.timers _ _ hh
    | caller c => trivial
  | ran hb ht =>
    rw [← hs]
    exact .ran (h.begun _ _ hb) (h.timers _ _ ht)
  | abandoned => exact .abandoned

theorem entryOk {k : OwnedKey} {entry : OwnedEntry} (hne : entry.attempt ≠ x)
    (he : EntryOk s k entry) : EntryOk t k entry where
  key := (h.key he.lt).trans he.key
  lt := he.lt.trans_le h.next_le
  preparing := by
    rintro a rfl
    rw [h.events a hne]
    exact he.preparing a rfl
  armed := by
    rintro armed rfl
    have hev : t.events armed.attempt = s.events armed.attempt := h.events _ hne
    rw [hev]
    exact he.armed armed rfl

theorem prepares (hne : owner.attempt ≠ x) (hp : Prepares s owner) : Prepares t owner where
  lt := hp.lt.trans_le h.next_le
  armed := hp.armed
  entry := by
    rw [h.key hp.lt]
    exact (h.entries _ (.preparing owner.attempt) hne).mpr hp.entry

theorem guarded (hg : Guarded s owner) : Guarded t owner := by
  obtain ⟨guard, hgu, hb⟩ := hg
  exact ⟨guard, hgu, h.begun _ _ hb⟩

theorem outcomeOk {outcome : Outcome} (hok : OutcomeOk s c outcome) : OutcomeOk t c outcome := by
  cases outcome with
  | scheduled a d newlyArmed => exact h.ready_armed hok
  | joinFailed a error => exact h.ready_abandoned hok
  | cancelled a => exact hok.imp fun _ => h.handed_of
  | claimed a claim =>
    cases a with
    | none => trivial
    | some a => exact h.handed_of hok
  | failed error | nothing | notCancelled => trivial

theorem callerOk {phase : Phase} (hne : unarmed phase ≠ some x) (hok : CallerOk s c phase) :
    CallerOk t c phase := by
  cases phase with
  | idle | opening subject => trivial
  | joined a => exact hok.trans_le h.next_le
  | waiting purpose subject a | taking purpose subject a => exact Nat.lt_of_lt_of_le hok h.next_le
  | beginning owner delayMs => exact h.prepares (fun ha => hne (congrArg some ha)) hok
  | guarded owner delayMs =>
    exact ⟨h.prepares (fun ha => hne (congrArg some ha)) hok.1, h.guarded hok.2⟩
  | spawned owner delayMs =>
    obtain ⟨hpr, hgu, i, hi, hti⟩ := hok
    exact ⟨h.prepares (fun ha => hne (congrArg some ha)) hpr, h.guarded hgu, i, hi,
      h.timers _ _ hti⟩
  | assertionFailed owner => exact hok
  | inserted owner i d deadline => exact ⟨hok.1.trans_le h.next_le, h.armed_of hok.2⟩
  | published owner i d deadline => exact ⟨hok.1.trans_le h.next_le, h.ready_armed hok.2⟩
  | dropping owner outcome =>
    refine ⟨fun har => ?_, fun har => ?_⟩
    · have hun : unarmed (.dropping owner outcome) = some owner.attempt := by
        simp [har]
      have hne' : owner.attempt ≠ x := fun ha => hne (hun.trans (congrArg some ha))
      exact ⟨h.prepares hne' (hok.1 har).1, (hok.1 har).2⟩
    · obtain ⟨d, hou, hre⟩ := hok.2 har
      exact ⟨d, hou, h.ready_armed hre⟩
  | abandoning owner removed outcome =>
    obtain ⟨hlt, hev, hab, hfa⟩ := hok
    have hne' : owner.attempt ≠ x := fun ha => hne (congrArg some ha)
    refine ⟨hlt.trans_le h.next_le, (h.events _ hne').trans hev, ?_, hfa⟩
    intro k entry hen hat
    exact hab k entry ((h.entries k entry (hat ▸ hne')).mp hen) hat
  | took purpose a claim handle | settling a claim => exact h.handed_of hok
  | finished outcome =>
    cases outcome with
    | none => trivial
    | some outcome => exact h.outcomeOk hok

end Evolves

theorem CallerOk.unarmed_lt (hok : CallerOk s c phase) (ha : unarmed phase = some a) :
    a < s.nextAttempt := by
  cases phase with
  | beginning owner delayMs =>
    cases ha
    exact hok.lt
  | guarded owner delayMs | spawned owner delayMs =>
    cases ha
    exact hok.1.lt
  | dropping owner outcome =>
    cases har : owner.armed with
    | true => simp [har] at ha
    | false =>
      simp only [unarmed, prepares, har, Bool.false_eq_true, if_false, Option.some.injEq] at ha
      exact ha ▸ (hok.1 har).1.lt
  | abandoning owner removed outcome =>
    cases ha
    exact hok.1
  | _ => simp at ha

theorem AttemptOk.of_empty (he : s.events a = []) (hr : (s.attempts a).ready = .preparing) :
    AttemptOk s a where
  life := he ▸ .preparing
  armed := by simp [hr]
  abandoned := by simp [hr]
  published := by
    rintro d ⟨guard, rest, hev⟩
    simp [he] at hev
  kept := by simp [he]
  fresh := fun _ => he

theorem AttemptOk.ready_of_empty (h : AttemptOk s a) (he : s.events a = []) :
    (s.attempts a).ready = .preparing := by
  cases hr : (s.attempts a).ready with
  | preparing => rfl
  | armed d =>
    obtain ⟨guard, rest, hev⟩ := h.armed d hr
    simp [he] at hev
  | abandoned => simpa [he] using h.abandoned hr

/-- The status of an attempt that was armed. -/
def Status (s : System) (a d : ℕ) : Prop :=
  (s.attempts a).ready = .armed d ∨ (s.attempts a).ready = .preparing ∧
    ∃ c owner i deadline, s.callers c = .inserted owner i d deadline ∧ owner.attempt = a

variable {guard : RepositoryPendingDeleteGuard} {rest : List Event}

theorem AttemptOk.status
    (h : AttemptOk s a) (he : s.events a = .armed d guard :: rest) : Status s a d := by
  cases hr : (s.attempts a).ready with
  | preparing => exact .inr ⟨hr, (h.published d ⟨guard, rest, he⟩).resolve_left (by simp [hr])⟩
  | armed d' =>
    obtain ⟨guard', rest', he'⟩ := h.armed d' hr
    cases he.symm.trans he'
    exact .inl hr
  | abandoned => cases he.symm.trans (h.abandoned hr)

theorem AttemptOk.of_armed (hlt : a < s.nextAttempt) (he : s.events a = .armed d guard :: rest)
    (hl : Life s a (s.events a)) (hs : Status s a d)
    (hk : rest = [] → ∃ entry, s.entries (s.key a) = some (.armed entry) ∧ entry.attempt = a) :
    AttemptOk s a where
  life := hl
  armed := by
    intro d' hd'
    obtain hd | ⟨hd, -⟩ := hs <;> cases hd.symm.trans hd'
    exact ⟨guard, rest, he⟩
  abandoned := by
    intro hd'
    obtain hd | ⟨hd, -⟩ := hs <;> cases hd.symm.trans hd'
  published := by
    rintro d' ⟨guard', rest', he'⟩
    cases he.symm.trans he'
    exact hs.imp_right And.right
  kept := fun d' guard' he' => hk (by cases he.symm.trans he'; rfl)
  fresh := fun hle => absurd hlt (Nat.not_lt.mpr hle)

/-- What a caller's step leaves to be shown once it is known to act on `x` only. -/
structure Acts (s t : System) (x c : ℕ) : Prop where
  others : ∀ c' ≠ c, t.callers c' = s.callers c'
  apart : ∀ c' ≠ c, unarmed (s.callers c') ≠ some x
  ok : CallerOk t c (t.callers c)
  unarmed : ∀ a, unarmed (t.callers c) = some a → unarmed (s.callers c) = some a ∨ s.nextAttempt ≤ a
  inserted : ∀ owner i d deadline, s.callers c = .inserted owner i d deadline →
    (s.attempts owner.attempt).ready = .armed d ∨ t.callers c = s.callers c

theorem Inv.evolve (h : Inv s) (hev : Evolves s t x) (hac : Acts s t x c) (hat : AttemptOk t x)
    (hen : ∀ k entry, t.entries k = some entry → entry.attempt = x → EntryOk t k entry)
    (hti : ∀ i timer, t.timers i = some timer → TimerOk t i timer)
    (hbe : ∀ g a, t.begun g = some a → g < t.nextGuard) : Inv t where
  attempt := by
    intro a
    by_cases ha : a = x
    · exact ha ▸ hat
    · have hok := h.attempt a
      by_cases hlt : a < s.nextAttempt
      · constructor
        · rw [hev.events a ha]
          exact hev.life_of hlt hok.life
        · intro d hd
          exact hev.armed_of (hok.armed d ((hev.ready a ha).symm.trans hd))
        · intro hd
          rw [hev.events a ha]
          exact hok.abandoned ((hev.ready a ha).symm.trans hd)
        · intro d hd
          obtain ⟨guard, rest, heve⟩ := hd
          rw [hev.events a ha] at heve
          rcases hok.published d ⟨guard, rest, heve⟩ with hd | ⟨c', owner, i, deadline, hc', how⟩
          · exact .inl (hev.ready_armed hd)
          · by_cases hcc : c' = c
            · subst hcc
              rcases hac.inserted _ _ _ _ hc' with hre | hsa
              · exact .inl (hev.ready_armed (how ▸ hre))
              · exact .inr ⟨c', owner, i, deadline, hsa.trans hc', how⟩
            · exact .inr ⟨c', owner, i, deadline, (hac.others c' hcc).trans hc', how⟩
        · intro d guard heve
          rw [hev.events a ha] at heve
          obtain ⟨entry, hen, rfl⟩ := hok.kept d guard heve
          exact ⟨entry, by rw [hev.key hlt]; exact (hev.entries _ (.armed entry) ha).mpr hen, rfl⟩
        · intro hle
          exact absurd (hlt.trans_le (hev.next_le.trans hle)) (lt_irrefl a)
      · have hem := hok.fresh (Nat.le_of_not_lt hlt)
        exact .of_empty ((hev.events a ha).trans hem)
          ((hev.ready a ha).trans (hok.ready_of_empty hem))
  entry := by
    intro k entry hk
    by_cases hx : entry.attempt = x
    · exact hen k entry hk hx
    · exact hev.entryOk hx (h.entry k entry ((hev.entries k entry hx).mp hk))
  caller := by
    intro c'
    by_cases hc : c' = c
    · exact hc ▸ hac.ok
    · rw [hac.others c' hc]
      exact hev.callerOk (hac.apart c' hc) (h.caller c')
  unique := by
    -- a new owner has a fresh attempt, which no other caller knows
    have hmi : ∀ c' ≠ c, ∀ a, unarmed (t.callers c) = some a →
        unarmed (t.callers c') = some a → c = c' := by
      intro c' hc a ha ha'
      rw [hac.others c' hc] at ha'
      rcases hac.unarmed a ha with hold | hfr
      · exact h.unique c c' a hold ha'
      · exact absurd ((h.caller c').unarmed_lt ha') (Nat.not_lt.mpr hfr)
    intro c₁ c₂ a h₁ h₂
    by_cases hc₁ : c₁ = c <;> by_cases hc₂ : c₂ = c
    · rw [hc₁, hc₂]
    · subst hc₁
      exact hmi c₂ hc₂ a h₁ h₂
    · subst hc₂
      exact (hmi c₁ hc₁ a h₂ h₁).symm
    · rw [hac.others c₁ hc₁] at h₁
      rw [hac.others c₂ hc₂] at h₂
      exact h.unique c₁ c₂ a h₁ h₂
  timer := hti
  begun_lt := hbe

section Quiet

variable (h : Inv s) (hne : t.nextAttempt = s.nextAttempt)
  (hat : t.attempts = s.attempts) (hen : t.entries = s.entries)
  (heve : t.events = s.events) (hbe : ∀ g a, s.begun g = some a → t.begun g = some a)
  (htim : ∀ i a, TimerOf s i a → TimerOf t i a)
  (hti : ∀ i timer, t.timers i = some timer → TimerOk t i timer)
  (hlt : ∀ g a, t.begun g = some a → g < t.nextGuard)
include h hne hat hen heve hbe htim hti hlt

/-- A step that changes neither an entry nor a history nor a published status. -/
theorem Inv.quiet (hot : ∀ c' ≠ c, t.callers c' = s.callers c')
    (hok : Evolves s t s.nextAttempt → CallerOk t c (t.callers c))
    (hun : ∀ a, unarmed (t.callers c) = some a → unarmed (s.callers c) = some a)
    (hin : ∀ owner i d deadline, s.callers c = .inserted owner i d deadline →
      (s.attempts owner.attempt).ready = .armed d ∨ t.callers c = s.callers c) : Inv t := by
  have hev : Evolves s t s.nextAttempt := by
    constructor <;> simp_all
  have hem := (h.attempt s.nextAttempt).fresh le_rfl
  refine h.evolve hev (c := c) ⟨hot, ?_, hok hev, ?_, ?_⟩ ?_ ?_ hti hlt
  · exact fun c' _ hc' => lt_irrefl _ ((h.caller c').unarmed_lt hc')
  · exact fun a ha => .inl (hun a ha)
  · exact hin
  · refine .of_empty (by rw [heve, hem]) ?_
    rw [hat]
    exact (h.attempt _).ready_of_empty hem
  · intro k entry hk hx
    rw [hen] at hk
    exact absurd (hx ▸ (h.entry k entry hk).lt) (lt_irrefl _)

theorem Inv.unmoved (hc : t.callers = s.callers) : Inv t := by
  refine h.quiet hne hat hen heve hbe htim hti hlt (c := 0) (fun c _ => congrFun hc c)
    (fun hev => ?_) ?_ ?_
  · rw [hc]
    exact hev.callerOk (fun hx => lt_irrefl _ ((h.caller 0).unarmed_lt hx)) (h.caller 0)
  · rw [hc]
    exact fun _ ha => ha
  · exact fun _ _ _ _ _ => .inr (congrFun hc 0)

end Quiet

theorem Inv.setCaller (h : Inv s) (hok : CallerOk s c phase)
    (hu : ∀ a, unarmed phase = some a → unarmed (s.callers c) = some a)
    (hin : ∀ owner i d deadline, s.callers c = .inserted owner i d deadline →
      (s.attempts owner.attempt).ready = .armed d) : Inv (s.setCaller c phase) := by
  have hs : (s.setCaller c phase).callers c = phase := System.setCaller_self
  refine h.quiet rfl rfl rfl rfl (fun _ _ hg => hg) (fun _ _ hi => hi)
    (fun i timer hi => { h.timer i timer hi with }) h.begun_lt (fun c' hc' =>
      System.setCaller_of_ne hc') ?_ ?_ ?_
  · intro hev
    rw [hs]
    refine hev.callerOk (fun hn => ?_) hok
    exact lt_irrefl _ ((h.caller c).unarmed_lt (hu _ hn))
  · exact fun a ha => hu a (hs ▸ ha)
  · exact fun owner i d deadline hc => .inl (hin owner i d deadline hc)

end Intentd.AttemptLives
