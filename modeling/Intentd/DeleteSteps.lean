import Intentd.AttemptLives

/-!
# Every step keeps the lives of the attempts

The steps of a schedule act on the attempt it prepares, which the entry under its key
shows to be unarmed and no other caller prepares. A take acts on the attempt it finds
armed under the attempt's own key; a timer runs the closure of the attempt it was handed.
-/
namespace Intentd.AttemptLives
open OwnedDeletes Function Option System

variable {s t : System} {x : ℕ} {c a i d handle : ℕ} {owner : Owner} {claim : PendingDeleteClaim}
  {outcome : Option Outcome}
variable {timer : DeleteTimer}

section Timers

variable {i : ℕ} {timer' : DeleteTimer}

theorem timerOf_setTimer (hi : s.timers i = some timer) (hat : timer'.attempt = timer.attempt)
    {j a : ℕ} (hj : TimerOf s j a) : TimerOf (s.setTimer i timer') j a := by
  obtain ⟨old, hold, ha⟩ := hj
  by_cases hji : j = i
  · subst hji
    obtain rfl := some.inj (hi.symm.trans hold)
    exact ⟨timer', setTimer_self, hat.trans ha⟩
  · exact ⟨old, (setTimer_of_ne hji).trans hold, ha⟩

theorem Inv.setTimer (h : Inv s) (hi : s.timers i = some timer)
    (hat : timer'.attempt = timer.attempt) (hc : ∀ claim, timer'.phase = .claimed claim → ∃ d guard,
      s.events timer.attempt = [.armed d guard, .handed (.timer i) claim]) :
    Inv (s.setTimer i timer') := by
  refine h.unmoved rfl rfl rfl rfl (fun _ _ hg => hg)
    (fun _ _ hj => timerOf_setTimer hi hat hj) (fun j new hj => ?_) h.begun_lt rfl
  by_cases hji : j = i
  · subst hji
    obtain rfl := some.inj (setTimer_self.symm.trans hj)
    have hok := h.timer j timer hi
    refine ⟨hok.lt, hat ▸ hok.attempt_lt, fun claim hp => ?_⟩
    rw [hat]
    exact hc claim hp
  · have hok := h.timer j new ((setTimer_of_ne hji).symm.trans hj)
    exact { hok with }

theorem Inv.modifyTimer (h : Inv s) (i : ℕ) {f : DeleteTimer → DeleteTimer}
    (ha : ∀ timer, (f timer).attempt = timer.attempt)
    (hp : ∀ timer, (f timer).phase = timer.phase) : Inv (s.modifyTimer i f) := by
  cases hi : s.timers i with
  | none =>
    have hs : s.modifyTimer i f = s := by
      unfold System.modifyTimer
      rw [hi, map_none, ← hi, Function.update_eq_self]
    rwa [hs]
  | some timer =>
    have hset : s.modifyTimer i f = s.setTimer i (f timer) := by
      unfold System.modifyTimer System.setTimer
      rw [hi, map_some]
    rw [hset]
    refine h.setTimer hi (ha timer) fun claim hc => ?_
    exact (h.timer i timer hi).claimed claim ((hp timer).symm.trans hc)

theorem Inv.addTimer (h : Inv s) {a : ℕ} (ha : a < s.nextAttempt) : Inv (s.addTimer a) := by
  have ho : ∀ j, j ≠ s.nextTimer → (s.addTimer a).timers j = s.timers j :=
    fun j hj => setTimer_of_ne hj
  refine h.unmoved rfl rfl rfl rfl (fun _ _ hg => hg) ?_ ?_ h.begun_lt rfl
  · rintro j b ⟨old, hold, hb⟩
    exact ⟨old, (ho j (Nat.ne_of_lt (h.timer j old hold).lt)).trans hold, hb⟩
  · intro j new hj
    by_cases hji : j = s.nextTimer
    · subst hji
      obtain rfl := some.inj (setTimer_self.symm.trans hj)
      exact ⟨Nat.lt_succ_self _, ha, by simp⟩
    · have hok := h.timer j new ((ho j hji).symm.trans hj)
      exact { hok with lt := hok.lt.trans (Nat.lt_succ_self _) }

end Timers

theorem Inv.beginGuard (h : Inv s) (a : Option ℕ) : Inv (s.beginGuard a) := by
  refine h.unmoved rfl rfl rfl rfl ?_ (fun _ _ hi => hi) (fun i timer hi =>
    { h.timer i timer hi with }) ?_ rfl
  · intro g b hg
    exact (update_of_ne (Nat.ne_of_lt (h.begun_lt g b hg)) ..).trans hg
  · intro g b hg
    change g < s.nextGuard + 1
    by_cases hgn : g = s.nextGuard
    · omega
    · have := h.begun_lt g b ((update_of_ne hgn ..).symm.trans hg)
      omega

variable {k : OwnedKey} {new : Option OwnedEntry}

theorem entries_update (hold : ∀ entry, s.entries k = some entry → entry.attempt = x)
    (hnew : ∀ entry, new = some entry → entry.attempt = x) (k' : OwnedKey) (entry : OwnedEntry)
    (hne : entry.attempt ≠ x) :
    Function.update s.entries k new k' = some entry ↔ s.entries k' = some entry := by
  by_cases hk : k' = k
  · subst hk
    rw [update_self]
    exact ⟨fun heq => absurd (hnew entry heq) hne, fun heq => absurd (hold entry heq) hne⟩
  · rw [update_of_ne hk]

/-- An entry of an attempt is found under the attempt's key only. -/
theorem Inv.update_entry (h : Inv s) {entry : OwnedEntry}
    (hk : update s.entries (s.key x) new k = some entry) (hx : entry.attempt = x) :
    k = s.key x ∧ new = some entry := by
  by_cases hkk : k = s.key x
  · rw [hkk, update_self] at hk
    exact ⟨hkk, hk⟩
  · rw [update_of_ne hkk] at hk
    exact absurd ((h.entry k entry hk).key.symm.trans (congrArg s.key hx)) hkk

/-- A caller that is not in the phase after it put its timer in goes on to another phase. -/
theorem Inv.advance (h : Inv s) {before phase : Phase} (hc : s.callers c = before)
    (hok : CallerOk s c phase) (hu : ∀ a, unarmed phase = some a → unarmed before = some a)
    (hne : ∀ owner i d deadline, before ≠ .inserted owner i d deadline := by simp) :
    Inv (s.setCaller c phase) :=
  h.setCaller hok (hc ▸ hu) fun _ _ _ _ hins => absurd (hc.symm.trans hins) (hne _ _ _ _)

theorem Inv.scheduleOwned (h : Inv s) (hc : s.callers c = .idle) (subject : PendingDeleteSubject)
    (delayMs : ℕ) : Inv (s.scheduleOwned c subject delayMs) := by
  unfold System.scheduleOwned
  split
  · rename_i entry hent
    split
    · exact h.advance hc (h.entry _ _ hent).lt (by simp)
    · exact h.advance hc trivial (by simp)
  · rename_i hno
    have hem := (h.attempt s.nextAttempt).fresh le_rfl
    have hre := (h.attempt s.nextAttempt).ready_of_empty hem
    generalize ht : ({ (s.setEntry subject.key (some (.preparing s.nextAttempt))).setCaller c
          (.beginning ⟨s.nextAttempt, none, none, false⟩ delayMs) with
        attempts := Function.update s.attempts s.nextAttempt ⟨subject, .preparing⟩
        nextAttempt := s.nextAttempt + 1 } : System) = t
    have hatt : t.attempts s.nextAttempt = ⟨subject, .preparing⟩ := ht ▸ update_self ..
    have hat : ∀ a ≠ s.nextAttempt, t.attempts a = s.attempts a :=
      fun a ha => ht ▸ update_of_ne ha ..
    have hkey : t.key s.nextAttempt = subject.key := by rw [System.key, hatt]
    have hen : t.entries = Function.update s.entries subject.key
        (some (.preparing s.nextAttempt)) := ht ▸ rfl
    have hse : t.entries subject.key = some (.preparing s.nextAttempt) := by
      rw [hen, update_self]
    have hne : t.nextAttempt = s.nextAttempt + 1 := ht ▸ rfl
    have heve : t.events = s.events := ht ▸ rfl
    have hca : t.callers c = .beginning ⟨s.nextAttempt, none, none, false⟩ delayMs :=
      ht ▸ update_self ..
    have hev : Evolves s t s.nextAttempt := by
      refine ⟨by omega, fun a ha => ?_, ht ▸ fun _ _ hg => hg, ht ▸ fun _ _ hi => hi,
        fun _ _ => by rw [heve], fun a ha => by rw [hat a ha], ?_, by simp [heve],
        by simp [hre], by simp [hre]⟩
      · rw [hat a (Nat.ne_of_lt ha)]
      · rw [hen]
        exact entries_update (by simp [hno]) (by simp [OwnedEntry.attempt])
    refine h.evolve hev (c := c) ⟨fun c' hc' => ht ▸ update_of_ne hc' .., ?_, ?_, ?_, ?_⟩
      (.of_empty (heve ▸ hem) (by rw [hatt])) ?_ ?_ (ht ▸ h.begun_lt)
    · exact fun c' _ hc' => lt_irrefl _ ((h.caller c').unarmed_lt hc')
    · rw [hca]
      exact ⟨hne ▸ Nat.lt_succ_self _, rfl, hkey ▸ hse⟩
    · rw [hca]
      exact fun a ha => .inr (some.inj ha).le
    · simp [hc]
    · intro k entry hk hx
      by_cases hkk : k = subject.key
      · subst hkk
        cases hse.symm.trans hk
        refine ⟨hkey, hne ▸ Nat.lt_succ_self _, ?_, (by simp)⟩
        rintro a ⟨⟩
        exact heve ▸ hem
      · rw [hen, update_of_ne hkk] at hk
        exact absurd (hx ▸ (h.entry k entry hk).lt) (lt_irrefl _)
    · subst ht
      exact fun i timer hi => ⟨(h.timer i timer hi).lt,
        (h.timer i timer hi).attempt_lt.trans (Nat.lt_succ_self _), (h.timer i timer hi).claimed⟩

theorem TimerOk.evolve (hok : TimerOk s i timer) (hev : Evolves s t x)
    (hn : t.nextTimer = s.nextTimer)
    (hs : ∀ d guard claim, s.events x = [.armed d guard, .handed (.timer i) claim] →
      timer.phase = .claimed claim → t.events x = s.events x) : TimerOk t i timer := by
  refine ⟨hn ▸ hok.lt, hok.attempt_lt.trans_le hev.next_le, fun claim hp => ?_⟩
  obtain ⟨d, guard, hc⟩ := hok.claimed claim hp
  refine ⟨d, guard, ?_⟩
  by_cases hx : timer.attempt = x
  · subst hx
    exact (hs d guard claim hc hp).trans hc
  · exact (hev.events _ hx).trans hc

/-- The invariant of the map makes the entry under an owner's key its own. -/
theorem Inv.arm (h : Inv s) {delayMs : ℕ} (hc : s.callers c = .spawned owner delayMs) :
    Inv (s.arm c owner delayMs) := by
  have hca := h.caller c
  rw [hc] at hca
  obtain ⟨hpr, ⟨guard, hgu, hbe⟩, i, hi, hti⟩ := hca
  have hem := (h.entry _ _ hpr.entry).preparing _ rfl
  have hre := (h.attempt owner.attempt).ready_of_empty hem
  have hun : unarmed (s.callers c) = some owner.attempt := by rw [hc]; rfl
  generalize hd : s.wallMs + clampUndoDelayMs delayMs = d
  generalize ht : s.arm c owner delayMs = t
  simp only [System.arm, hpr.entry, hi, hgu, hd, map_some, OwnedEntry.attempt, if_true] at ht
  have hen : t.entries = Function.update s.entries (s.key owner.attempt)
      (some (.armed ⟨owner.attempt, d, some guard, i⟩)) := ht ▸ rfl
  have heve : t.events owner.attempt = [.armed d guard] :=
    ht ▸ (update_self ..).trans (congrArg (· ++ [Event.armed d guard]) hem)
  have hlt : owner.attempt < t.nextAttempt := ht ▸ hpr.lt
  have hev : Evolves s t owner.attempt := by
    subst ht
    refine ⟨le_rfl, fun _ _ => rfl, fun _ _ hg => hg, fun _ _ hj => hj,
      fun a ha => update_of_ne ha .., fun _ _ => rfl, ?_, by simp [hem], by simp [hre],
      by simp [hre]⟩
    exact entries_update (by simp [hpr.entry, OwnedEntry.attempt]) (by simp [OwnedEntry.attempt])
  obtain ⟨owner', deadline, hse, hsa⟩ : ∃ owner' deadline,
      t.callers c = .inserted owner' i d deadline ∧ owner'.attempt = owner.attempt :=
    ht ▸ ⟨_, _, System.setCaller_self, rfl⟩
  refine h.evolve hev (c := c) ⟨fun c' hc' => ht ▸ System.setCaller_of_ne hc', ?_, ?_, ?_, ?_⟩
    (.of_armed hlt heve ?_ (.inr ⟨ht ▸ hre, c, owner', i, deadline, hse, hsa⟩) ?_) ?_ ?_
    (ht ▸ h.begun_lt)
  · exact fun c' hc' hx => hc' (h.unique _ _ _ hx hun)
  · rw [hse]
    exact ⟨hsa ▸ hlt, guard, [], hsa ▸ heve⟩
  · simp [hse]
  · simp [hc]
  · rw [heve]
    exact .armed (hev.begun _ _ hbe)
  · intro _
    refine ⟨⟨owner.attempt, d, some guard, i⟩, ?_, rfl⟩
    rw [hen, hev.key hpr.lt, update_self]
  · intro k entry hk hx
    rw [hen] at hk
    obtain ⟨rfl, hnew⟩ := h.update_entry hk hx
    cases hnew
    refine ⟨hev.key hpr.lt, hlt, (by simp), ?_⟩
    rintro armed ⟨⟩
    exact ⟨guard, rfl, heve⟩
  · subst ht
    refine fun j timer hj => (h.timer j timer hj).evolve hev rfl fun d' guard' claim hcl _ => ?_
    cases hem.symm.trans hcl

theorem Inv.unarmed_empty (h : Inv s) (ha : unarmed (s.callers c) = some a) : s.events a = [] := by
  have hok := h.caller c
  have hp : ∀ owner : Owner, Prepares s owner → s.events owner.attempt = [] :=
    fun owner hp => (h.entry _ _ hp.entry).preparing _ rfl
  cases hc : s.callers c with
  | beginning owner delayMs =>
    rw [hc] at hok ha
    cases ha
    exact hp owner hok
  | guarded owner delayMs | spawned owner delayMs =>
    rw [hc] at hok ha
    cases ha
    exact hp owner hok.1
  | dropping owner outcome =>
    rw [hc] at hok ha
    cases har : owner.armed with
    | true => simp [har] at ha
    | false =>
      simp only [unarmed, prepares, har, Bool.false_eq_true, if_false, some.injEq] at ha
      exact ha ▸ hp owner (hok.1 har).1
  | abandoning owner removed outcome =>
    rw [hc] at hok ha
    cases ha
    exact hok.2.1
  | _ => simp [hc] at ha

theorem Inv.evolve_unmoved (h : Inv s) (hev : Evolves s t x) (hc : t.callers = s.callers)
    (hap : ∀ c, unarmed (s.callers c) ≠ some x) (hat : AttemptOk t x)
    (he : ∀ k entry, t.entries k = some entry → entry.attempt = x → EntryOk t k entry)
    (ht : ∀ i timer, t.timers i = some timer → TimerOk t i timer)
    (hb : ∀ g a, t.begun g = some a → g < t.nextGuard) : Inv t := by
  refine h.evolve hev (c := 0) ⟨?_, fun c _ => hap c, ?_, ?_, ?_⟩ hat he ht hb
  · exact fun c _ => congrFun hc c
  · rw [hc]
    exact hev.callerOk (hap 0) (h.caller 0)
  · intro a ha
    rw [hc] at ha
    exact .inl ha
  · exact fun _ _ _ _ _ => .inr (congrFun hc 0)

theorem Inv.apart (h : Inv s) {event : Event} {rest : List Event} (he : s.events a = event :: rest)
    (c : ℕ) : unarmed (s.callers c) ≠ some a :=
  fun hc => by cases he.symm.trans (h.unarmed_empty hc)

theorem Inv.sendReplace (h : Inv s) (ha : a < s.nextAttempt) (har : Armed s a d) :
    Inv (s.sendReplace a (.armed d)) := by
  have hs : ((s.sendReplace a (.armed d)).attempts a) = ⟨(s.attempts a).subject, .armed d⟩ :=
    update_self ..
  have ho : ∀ b ≠ a, (s.sendReplace a (.armed d)).attempts b = s.attempts b :=
    fun b hb => update_of_ne hb ..
  obtain ⟨guard, rest, he⟩ := har
  have hok := h.attempt a
  have hev : Evolves s (s.sendReplace a (.armed d)) a := by
    refine ⟨le_rfl, fun b _ => ?_, fun _ _ hg => hg, fun _ _ hi => hi, fun _ _ => rfl,
      fun b hb => by rw [ho b hb], fun _ _ _ => Iff.rfl, List.prefix_rfl, ?_, ?_⟩
    · by_cases hb : b = a
      · rw [hb, hs]
      · rw [ho b hb]
    · intro d' hd'
      obtain hd | ⟨hd, -⟩ := hok.status he <;> cases hd.symm.trans hd'
      rw [hs]
    · intro hab
      cases he.symm.trans (hok.abandoned hab)
  refine h.evolve_unmoved hev rfl (h.apart he)
    (.of_armed ha he (hev.life_of ha hok.life) (.inl (by rw [hs])) ?_) ?_ ?_ h.begun_lt
  · rintro rfl
    rw [hev.key ha]
    exact hok.kept d guard he
  · intro k entry hk _
    have hen := h.entry k entry hk
    exact { hen with key := (hev.key hen.lt).trans hen.key }
  · exact fun i timer hi => (h.timer i timer hi).evolve hev rfl fun _ _ _ _ _ => rfl

theorem Inv.of_takeArmed (h : Inv s) (ht : s.takeArmed a = some (claim, handle)) :
    ∃ armed guard, s.entries (s.key a) = some (.armed armed) ∧ armed.attempt = a ∧
      s.events a = [.armed armed.deleteAt guard] ∧ claim = ⟨(s.attempts a).subject, guard⟩ := by
  unfold takeArmed at ht
  split at ht
  · rename_i armed he
    split at ht
    · rename_i ha
      obtain ⟨guard, hg, hev⟩ := (h.entry _ _ he).armed armed rfl
      rw [hg, map_some, some.injEq, Prod.mk.injEq] at ht
      exact ⟨armed, guard, he, ha, ha ▸ hev, ht.1.symm⟩
    · cases ht
  · cases ht

/-- The guard of an armed attempt goes to its holder, and the entry is gone. -/
theorem Inv.handOut (h : Inv s) (ho : Holder) (hta : s.takeArmed a = some (claim, handle))
    (hh : HolderOf s a ho) :
    Inv (s.handOut a ho claim) ∧
      ∃ d guard, (s.handOut a ho claim).events a = [.armed d guard, .handed ho claim] := by
  obtain ⟨armed, guard, hen, ha, he, rfl⟩ := h.of_takeArmed hta
  have hlt : a < s.nextAttempt := ha ▸ (h.entry _ _ hen).lt
  have hs : (s.handOut a ho ⟨(s.attempts a).subject, guard⟩).events a =
      [.armed armed.deleteAt guard, .handed ho ⟨(s.attempts a).subject, guard⟩] :=
    (update_self ..).trans (congrArg (· ++ [Event.handed ho ⟨(s.attempts a).subject, guard⟩]) he)
  refine ⟨?_, _, _, hs⟩
  generalize ht : s.handOut a ho ⟨(s.attempts a).subject, guard⟩ = t at hs
  have hev : Evolves s t a := by
    subst ht
    refine ⟨le_rfl, fun _ _ => rfl, fun _ _ hg => hg, fun _ _ hi => hi,
      fun b hb => update_of_ne hb .., fun _ _ => rfl, ?_, ?_, fun _ hd => hd, fun hd => hd⟩
    · refine entries_update (fun entry hk => ?_) (by simp)
      cases hen.symm.trans hk
      exact ha
    · rw [hs, he]
      exact ⟨[_], rfl⟩
  have hok := h.attempt a
  refine h.evolve_unmoved hev (ht ▸ rfl) (h.apart he)
    (.of_armed (hlt.trans_le hev.next_le) hs ?_ (ht ▸ hok.status he) (by simp)) ?_ ?_
    (ht ▸ h.begun_lt)
  · rw [hs]
    refine hev.life_of hlt (.handed ?_ hh)
    have hl := hok.life
    rw [he] at hl
    cases hl with
    | armed hbe => exact hbe
  · subst ht
    intro k entry hk hx
    cases (h.update_entry hk hx).2
  · subst ht
    refine fun i timer hi => (h.timer i timer hi).evolve hev rfl fun d guard' claim hc _ => ?_
    cases he.symm.trans hc

/-- The closure of an attempt runs once its timer was handed the guard. -/
theorem Inv.ran (h : Inv s) {guard : RepositoryPendingDeleteGuard} (ha : a < s.nextAttempt)
    (he : s.events a = [.armed d guard, .handed (.timer i) claim])
    (hq : ∀ timer, s.timers i = some timer → timer.phase ≠ .claimed claim) :
    Inv (s.record a (.ran claim)) := by
  have hs : (s.record a (.ran claim)).events a =
      [.armed d guard, .handed (.timer i) claim, .ran claim] :=
    (update_self ..).trans (congrArg (· ++ [Event.ran claim]) he)
  have hev : Evolves s (s.record a (.ran claim)) a := by
    refine ⟨le_rfl, fun _ _ => rfl, fun _ _ hg => hg, fun _ _ hi => hi,
      fun b hb => update_of_ne hb .., fun _ _ => rfl, fun _ _ _ => Iff.rfl, ?_,
      fun _ hd => hd, fun hd => hd⟩
    rw [hs, he]
    exact ⟨[_], rfl⟩
  have hok := h.attempt a
  refine h.evolve_unmoved hev rfl (h.apart he)
    (.of_armed ha hs ?_ (hok.status he) (by simp)) ?_ ?_ h.begun_lt
  · rw [hs]
    refine hev.life_of ha ?_
    have hl := hok.life
    rw [he] at hl
    cases hl with
    | handed hbe hh => exact .ran hbe hh
  · intro k entry hk hx
    -- the entry of an attempt that was handed out is gone
    have hen := h.entry k entry hk
    cases entry with
    | preparing b =>
      cases hx
      cases he.symm.trans (hen.preparing b rfl)
    | armed armed =>
      cases hx
      obtain ⟨guard', -, he'⟩ := hen.armed armed rfl
      cases he.symm.trans he'
  · intro j timer hj
    refine (h.timer j timer hj).evolve hev rfl fun d' guard' claim' hc hp => ?_
    cases he.symm.trans hc
    exact absurd hp (hq timer hj)

theorem Inv.abandoned (h : Inv s) (ha : a < s.nextAttempt) (he : s.events a = [])
    (hab : ∀ k entry, s.entries k = some entry → entry.attempt ≠ a)
    (hap : ∀ c, unarmed (s.callers c) ≠ some a) :
    Inv ((s.sendReplace a .abandoned).record a .abandoned) := by
  generalize ht : (s.sendReplace a .abandoned).record a .abandoned = t
  have hs : t.events a = [.abandoned] :=
    ht ▸ (update_self ..).trans (congrArg (· ++ [Event.abandoned]) he)
  have hat : t.attempts a = ⟨(s.attempts a).subject, .abandoned⟩ := ht ▸ update_self ..
  have ho : ∀ b ≠ a, t.attempts b = s.attempts b := fun b hb => ht ▸ update_of_ne hb ..
  have hr := (h.attempt a).ready_of_empty he
  have hev : Evolves s t a := by
    refine ⟨ht ▸ le_rfl, fun b _ => ?_, ht ▸ fun _ _ hg => hg, ht ▸ fun _ _ hi => hi,
      fun b hb => ht ▸ update_of_ne hb .., fun b hb => by rw [ho b hb],
      ht ▸ fun _ _ _ => Iff.rfl, he ▸ List.nil_prefix, by simp [hr], by simp [hr]⟩
    by_cases hb : b = a
    · rw [hb, hat]
    · rw [ho b hb]
  refine h.evolve_unmoved hev (ht ▸ rfl) hap
    ⟨hs ▸ .abandoned, by simp [hat], fun _ => hs, ?_, by simp [hs], ?_⟩ ?_ ?_
    (ht ▸ h.begun_lt)
  · rintro d ⟨guard, rest, hd⟩
    cases hs.symm.trans hd
  · exact fun hle => absurd (ha.trans_le (hev.next_le.trans hle)) (lt_irrefl _)
  · subst ht
    exact fun k entry hk hx => absurd hx (hab k entry hk)
  · subst ht
    refine fun i timer hi => (h.timer i timer hi).evolve hev rfl fun d guard claim hc _ => ?_
    cases he.symm.trans hc

/-- A preparation owner removes the entry of its attempt and of no other. -/
theorem Inv.dropOwner (h : Inv s) (hc : s.callers c = .dropping owner outcome) :
    Inv (s.dropOwner c owner outcome) := by
  have hca := h.caller c
  rw [hc] at hca
  cases har : owner.armed with
  | true =>
    obtain ⟨d, rfl, hre⟩ := hca.2 har
    have hdo : s.dropOwner c owner (some (.scheduled owner.attempt d true)) =
        s.setCaller c (.finished (some (.scheduled owner.attempt d true))) := by
      simp [System.dropOwner, har]
    rw [hdo]
    exact h.advance hc hre (by simp)
  | false =>
    obtain ⟨hpr, hfa⟩ := hca.1 har
    have hem := (h.entry _ _ hpr.entry).preparing _ rfl
    have hre := (h.attempt owner.attempt).ready_of_empty hem
    have hun : unarmed (s.callers c) = some owner.attempt := by
      simp [hc, har]
    generalize ht : s.dropOwner c owner outcome = t
    simp only [System.dropOwner, har, Bool.false_eq_true, if_false, hpr.entry,
      OwnedEntry.attempt, if_true] at ht
    have hse : t.callers c = .abandoning owner (some (.preparing owner.attempt)) outcome :=
      ht ▸ System.setCaller_self
    have heve : t.events = s.events := ht ▸ rfl
    have hab : ∀ k entry, t.entries k = some entry → entry.attempt ≠ owner.attempt := by
      subst ht
      intro k entry hk hx
      cases (h.update_entry hk hx).2
    have hev : Evolves s t owner.attempt := by
      subst ht
      refine ⟨le_rfl, fun _ _ => rfl, fun _ _ hg => hg, fun _ _ hi => hi, fun _ _ => rfl,
        fun _ _ => rfl, ?_, List.prefix_rfl, fun _ hd => hd, fun hd => hd⟩
      exact entries_update (by simp [hpr.entry, OwnedEntry.attempt]) (by simp)
    refine h.evolve hev (c := c) ⟨fun c' hc' => ht ▸ System.setCaller_of_ne hc', ?_, ?_, ?_, ?_⟩
      (.of_empty (heve ▸ hem) (ht ▸ hre)) ?_ ?_ (ht ▸ h.begun_lt)
    · exact fun c' hc' hx => hc' (h.unique _ _ _ hx hun)
    · rw [hse]
      exact ⟨hpr.lt.trans_le hev.next_le, heve ▸ hem, hab, hfa⟩
    · rw [hse]
      exact fun a ha => .inl (hun.trans ha)
    · simp [hc]
    · exact fun k entry hk hx => absurd hx (hab k entry hk)
    · subst ht
      exact fun i timer hi => (h.timer i timer hi).evolve hev rfl fun _ _ _ _ _ => rfl

theorem Inv.initial : Inv .initial where
  attempt := fun _ => .of_empty rfl rfl
  entry := nofun
  caller := fun _ => trivial
  unique := nofun
  timer := nofun
  begun_lt := nofun

theorem Inv.callerAt (h : Inv s) {phase : Phase} (hc : s.callers c = phase) : CallerOk s c phase :=
  hc ▸ h.caller c

theorem Inv.tookNothing (h : Inv s) (purpose : Purpose) (subject : PendingDeleteSubject)
    {phase : Phase} (hc : s.callers c = phase)
    (hne : ∀ owner i d deadline, phase ≠ .inserted owner i d deadline := by simp) :
    Inv (s.tookNothing c purpose subject) := by
  cases purpose <;> exact h.advance hc trivial (by simp) hne

theorem Inv.surroundings (h : Inv s) (closed : Bool) (wallMs monotonicMs : ℕ) :
    Inv { s with closed := closed, wallMs := wallMs, monotonicMs := monotonicMs } :=
  h.unmoved rfl rfl rfl rfl (fun _ _ hg => hg) (fun _ _ hi => hi)
    (fun i timer hi => { h.timer i timer hi with }) h.begun_lt rfl

theorem aborts_eq (ha : List ℕ) (s : System) :
    ha.foldl abort s = { s with timers := (ha.foldl abort s).timers } := by
  induction ha generalizing s with
  | nil => rfl
  | cons i ha ih =>
    rw [List.foldl_cons, ih]
    rfl

theorem Inv.aborts (ha : List ℕ) (h : Inv s) : Inv (ha.foldl abort s) := by
  induction ha generalizing s with
  | nil => exact h
  | cons i ha ih => exact ih (h.modifyTimer i (fun _ => rfl) fun _ => rfl)

theorem Inv.abandon (h : Inv s) {removed : Option OwnedEntry}
    (hc : s.callers c = .abandoning owner removed outcome) :
    Inv (s.abandon c owner removed outcome) := by
  obtain ⟨hlt, he, hab, hfa⟩ := h.callerAt hc
  have hu : unarmed (s.callers c) = some owner.attempt := by rw [hc]; rfl
  unfold System.abandon
  simp only
  generalize (removed.bind OwnedEntry.handle).toList ++ owner.timer.toList = han
  have ha := h.aborts han
  rw [aborts_eq] at ha ⊢
  generalize (han.foldl System.abort s).timers = timers at ha ⊢
  -- the owner is gone before the attempt is abandoned, so that nobody prepares it
  have ho : CallerOk { s with timers := timers } c (.finished outcome) := by
    rcases hfa with rfl | ⟨error, rfl⟩ <;> trivial
  have hf := ha.advance hc ho (by simp)
  refine hf.abandoned hlt he hab fun c' hc' => ?_
  by_cases hcc : c' = c
  · rw [hcc, System.setCaller_self] at hc'
    simp at hc'
  · rw [System.setCaller_of_ne hcc] at hc'
    exact hcc (h.unique c' c _ hc' hu)

theorem Inv.step (h : Inv s) (hste : Step s t) : Inv t := by
  cases hste with
  | tick wallMs elapsed | close => exact h.surroundings _ _ _
  | schedule subject delayMs hc => exact h.scheduleOwned hc subject delayMs
  | take purpose subject hc =>
    unfold originalAttempt
    split
    · rename_i entry hen
      split
      · exact h.advance hc (h.entry _ _ hen).lt (by simp)
      · exact h.advance hc trivial (by simp)
    · exact h.tookNothing _ _ hc
  | joined hc hre =>
    rename_i c a
    refine h.advance hc ?_ (by simp)
    cases hst : (s.attempts a).ready with
    | preparing => exact absurd hst hre
    | armed d | abandoned => exact hst
  | prepared hc hre =>
    have hlt := h.callerAt hc
    exact h.advance hc hlt (by simp)
  | notPrepared hc hre => exact h.tookNothing _ _ hc
  | begin hc =>
    have hpr := h.callerAt hc
    exact (h.beginGuard _).advance hc ⟨{ hpr with }, _, rfl, update_self ..⟩ (fun _ ha => ha)
  | beginFails hc =>
    have hpr := h.callerAt hc
    refine h.advance hc ⟨fun _ => ⟨hpr, .inr ⟨_, rfl⟩⟩, ?_⟩ ?_
    all_goals simp [hpr.armed]
  | spawn hc =>
    obtain ⟨hpr, hgu⟩ := h.callerAt hc
    unfold spawnTimer
    split
    · refine h.advance hc ⟨fun _ => ⟨hpr, .inr ⟨_, rfl⟩⟩, ?_⟩ ?_
      all_goals simp [hpr.armed]
    · exact (h.addTimer hpr.lt).advance hc ⟨{ hpr with }, hgu, _, rfl, _, setTimer_self, rfl⟩
        (fun _ ha => ha)
  | arm hc => exact h.arm hc
  | publish hc =>
    rename_i c timer d deadline owner
    obtain ⟨hlt, har⟩ := h.callerAt hc
    have hre : ((s.sendReplace owner.attempt (.armed d)).attempts owner.attempt).ready = .armed d :=
      congrArg Attempt.ready sendReplace_self
    refine (h.sendReplace hlt har).setCaller ⟨hlt, hre⟩ (by simp) ?_
    intro owner' i' d' deadline' hins
    cases hc.symm.trans hins
    exact hre
  | start hc =>
    rename_i c timer d deadline owner
    obtain ⟨hlt, hre⟩ := h.callerAt hc
    have hsta := h.modifyTimer timer (f := ({ · with start := some deadline }))
      (fun _ => rfl) fun _ => rfl
    exact hsta.advance hc ⟨(by simp), fun _ => ⟨_, rfl, hre⟩⟩ (by simp)
  | drop hc =>
    rename_i c phase
    cases hph : s.callers c with
    | beginning owner delayMs =>
      rw [hph] at hc
      obtain rfl := some.inj hc
      have hpr := h.callerAt hph
      refine h.advance hph ⟨fun _ => ⟨hpr, .inl rfl⟩, ?_⟩ ?_
      all_goals simp [hpr.armed]
    | joined | waiting | settling | opening =>
      rw [hph] at hc
      obtain rfl := some.inj hc
      exact h.advance hph trivial (by simp)
    | _ => simp [hph, Phase.dropped] at hc
  | dropOwner hc => exact h.dropOwner hc
  | abandon hc => exact h.abandon hc
  | takeFor hc =>
    unfold takeFor
    split
    · rename_i claim handle hta
      obtain ⟨hinv, d, guard, hev⟩ := h.handOut (.caller _) hta trivial
      exact hinv.advance hc ⟨d, guard, [], hev⟩ (by simp)
    · exact h.tookNothing _ _ hc
  | abortTimer hc =>
    rename_i c a handle purpose claim
    have hha := h.callerAt hc
    have hab := h.modifyTimer handle (f := ({ · with aborted := true })) (fun _ => rfl) fun _ => rfl
    cases purpose <;> exact hab.advance hc hha (by simp [afterTake])
  | settle hc =>
    exact h.advance hc ⟨_, h.callerAt hc⟩ (by simp)
  | settleFails hc | openFails hc => exact h.advance hc trivial (by simp)
  | opened hc => exact (h.beginGuard _).advance hc trivial (by simp)
  | timerStarts ht hph hstar hab => exact h.setTimer ht rfl (by simp)
  | timerFires ht hph hdue hop hab => exact h.setTimer ht rfl (by simp)
  | timerClaims alive ht hph =>
    rename_i i timer
    unfold timerClaim
    split
    · rename_i claim handle hta
      split at hta
      · obtain ⟨hinv, hev⟩ := h.handOut (.timer i) hta ⟨timer, ht, rfl⟩
        refine hinv.setTimer ht rfl ?_
        rintro claim' ⟨⟩
        exact hev
      · cases hta
    · exact h.setTimer ht rfl (by simp)
  | timerDeletes ht hph =>
    rename_i i timer claim
    have hok := h.timer i timer ht
    obtain ⟨d, guard, hev⟩ := hok.claimed claim hph
    have hde : Inv (s.setTimer i { timer with phase := .deleting claim }) :=
      h.setTimer ht rfl (by simp)
    refine hde.ran hok.attempt_lt hev fun timer' ht' => ?_
    obtain rfl := some.inj (setTimer_self.symm.trans ht')
    simp
  | timerEnds ht hph => exact h.setTimer ht rfl (by simp)

end Intentd.AttemptLives
