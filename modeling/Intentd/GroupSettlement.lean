import Intentd.GroupChanges
import Intentd.LabelledRuns

/-!
# Groups settle once

While a group is marked by a delivery it is complete, so nothing is enrolled or recorded in
it and no write of it is queued behind its settlement. A group that is removed has no row
once the lane is drained, so a pass that reads the store then does not find it.

Three races break this: a child is enrolled in a group that was sealed, or even claimed,
since it was found; a child is cancelled whose completion is recorded already; and a restore
pass adds a group that was settled since it read the store.
-/
namespace Intentd.DelegationGroups
open KeyedTables LabelledRuns List DelegationGroup

section Restore

variable {s t : System} {g : DelegationGroup}

theorem restoreGroups_eq_self {groups : List DelegationGroup} (rows : List DelegationGroup)
    (h : ∀ row ∈ rows, row.groupId ∈ groups.map groupId) :
    System.restoreGroups groups rows = groups := by
  induction rows with
  | nil => rfl
  | cons row rows ih =>
    obtain ⟨hrow, hr⟩ := forall_mem_cons.mp h
    obtain ⟨g, hg, hid⟩ := mem_map.mp hrow
    rw [System.restoreGroups, if_pos (any_eq_true.mpr ⟨g, hg, decide_eq_true hid⟩), ih hr]

theorem Inv.restore (h : Inv s) {rows : List DelegationGroup}
    (hun : ∀ row ∈ rows, row.groupId ∈ s.groups.map groupId ∨
      row.groupId ∈ s.rows.map groupId ∧ ∀ op ∈ s.lane, op.groupId ≠ row.groupId) :
    System.restoreGroups s.groups rows = s.groups := by
  refine restoreGroups_eq_self rows fun row hrow => ?_
  rcases hun row hrow with hmem | ⟨hmem, hu⟩
  · exact hmem
  · cases hs : stored s row.groupId with
    | none =>
      rw [stored_of_untouched hu, lookup_eq_none] at hs
      exact absurd hmem hs
    | some row' =>
      obtain ⟨g, hg, hid⟩ := h.stray _ row' hs
      exact mem_map.mpr ⟨g, hg, hid⟩

theorem restoreGroups_of_nodup (rows : List DelegationGroup) :
    ∀ groups : List DelegationGroup, ((groups ++ rows).map groupId).Nodup →
      System.restoreGroups groups rows = groups ++ rows.map ({ · with sealed := true }) := by
  induction rows with
  | nil =>
    intro groups _
    rw [System.restoreGroups, map_nil, append_nil]
  | cons row rows ih =>
    intro groups hn
    have hf : ¬ (groups.any fun g => g.groupId = row.groupId) = true := by
      intro hany
      obtain ⟨g, hg, hid⟩ := any_eq_true.mp hany
      rw [map_append, map_cons] at hn
      refine (nodup_append.mp hn).2.2 _ (mem_map_of_mem hg) _ (mem_cons_self ..)
        (of_decide_eq_true hid)
    rw [System.restoreGroups, if_neg hf, ih _ (by simpa using hn)]
    simp

theorem Inv.persist (h : Inv s) (hs : s.persist = some t) : Inv t ∧ KeepsSealed s t := by
  unfold System.persist at hs
  cases hl : s.lane with
  | nil =>
    rw [hl] at hs
    cases hs
  | cons op lane =>
    rw [hl] at hs
    have hdo : ∀ id, stored { s with lane := lane, rows := op.apply s.rows } id = stored s id := by
      intro id
      rw [stored, stored, drained, drained, hl, foldl_cons]
    have hsa : Inv { s with lane := lane, rows := op.apply s.rows } :=
      h.advance (apply_keys_nodup op h.rowKeys) (fun id => .inl (hdo id))
        (fun id hid => (hdo id).trans (h.settling id hid)) (fun _ _ hid => hid)
        (fun _ _ hc => hc) h.cancels h.delivers
    have hp : some { s with lane := lane, rows := op.apply s.rows } = some t →
        Inv t ∧ KeepsSealed s t := by
      intro heq
      cases heq
      exact ⟨hsa, .of_eq h rfl⟩
    cases op with
    | upsert g | delete id => exact hp hs
    | settle id i =>
      dsimp only at hs
      cases hd : s.deliveries[i]? with
      | none =>
        rw [hd] at hs
        exact hp hs
      | some d =>
        rw [hd] at hs
        dsimp only at hs
        split_ifs at hs with hst
        · cases hs
          refine ⟨hsa.advance hsa.rowKeys (fun _ => .inl rfl) ?_ ?_ (fun _ _ hc => hc) h.cancels
            (hsa.delivers_setStage hd (by simp [hst]) .settled), .of_eq h rfl⟩
          · intro id hid
            exact hsa.settling id (settling_of_setStage hd (fun _ => .inl hst) hid)
          · intro g _ hid
            exact setStage_of_settling hd hid fun _ _ => .inr rfl
        · exact hp hs

theorem Recorded.restored {log : List Recording} (h : Recorded log g) {row : DelegationGroup}
    (hrow : SameRow g row) : Recorded log { row with sealed := true } :=
  h.expect hrow.groupId (fun _ hc _ => hrow.expected.symm ▸ hc) hrow.completed hrow.deleted
    hrow.summaries hrow.events

theorem Inv.restart (h : Inv s) (hste : s.restart = some t) : Inv t ∧ KeepsSealed s t := by
  unfold System.restart at hste
  split_ifs at hste with hem
  cases hste
  have hla : s.lane = [] := List.isEmpty_iff.mp hem
  have hdr : drained s = s.rows := by
    rw [drained, hla]
    rfl
  have hst : ∀ row ∈ s.rows, stored s row.groupId = some row := by
    intro row hrow
    rw [stored, hdr]
    exact lookup_of_mem h.rowKeys hrow
  -- Every row is that of a group, so it is undelivered and nothing is left out.
  have hkn : ∀ row ∈ s.rows, ∃ g ∈ s.groups, isStorable g = true ∧ SameRow g row := by
    intro row hrow
    obtain ⟨g, hg, hid⟩ := h.stray _ row (hst row hrow)
    exact ⟨g, hg, h.row g hg row (hid ▸ hst row hrow)⟩
  have hall : s.rows.filter (!·.delivered) = s.rows := by
    refine filter_eq_self.mpr fun row hrow => ?_
    obtain ⟨g, -, -, hsa⟩ := hkn row hrow
    simp [hsa.delivered]
  rw [hall, restoreGroups_of_nodup s.rows [] h.rowKeys, nil_append]
  have hmem : ∀ {P : DelegationGroup → Prop},
      (∀ row ∈ s.rows, ∀ x ∈ s.groups, SameRow x row → P { row with sealed := true }) →
      ∀ g ∈ s.rows.map ({ · with sealed := true }), P g := by
    intro P hro g hg
    obtain ⟨row, hrow, rfl⟩ := mem_map.mp hg
    obtain ⟨x, hx, -, hsa⟩ := hkn row hrow
    exact hro row hrow x hx hsa
  refine ⟨{ h with
    keys := ?_
    groupsUsed := hmem fun row _ x hx hsa => hsa.groupId ▸ h.groupsUsed x hx
    deliveriesUsed := forall_mem_nil _
    cancellingUsed := forall_mem_nil _
    gone := fun id hid => hmem fun row _ x hx hsa => hsa.groupId ▸ h.gone id hid x hx
    stray := fun id row hrow => ?_
    row := hmem fun row hrow x hx hsa row' hro' => ?_
    missing := hmem fun row hrow _ _ _ hno => ?_
    cancelling := forall_mem_nil _
    exclusive := nodup_nil
    claimed := forall_mem_nil _
    settling := fun id hid => ?_
    delivered := hmem fun row _ x _ hsa hde => ?_
    ready := forall_mem_nil _
    recorded := hmem fun row _ x hx hsa => (h.recorded x hx).restored hsa }, ?_⟩
  · rw [map_map]
    exact h.rowKeys
  · replace hrow : lookup groupId id (drained s) = some row := hrow
    rw [hdr] at hrow
    have hid : row.groupId = id := key_of_lookup hrow
    exact ⟨_, mem_map_of_mem (mem_of_lookup hrow), hid⟩
  · cases (hst row hrow).symm.trans hro'
    exact ⟨by simp [isStorable], rfl, rfl, rfl, rfl, rfl, rfl, rfl, rfl,
      fun _ => rfl, hsa.delivered⟩
  · cases (hst row hrow).symm.trans hno
  · obtain ⟨d, hd, -⟩ := hid
    cases hd
  · cases hsa.delivered.symm.trans hde
  · intro g hg _
    refine hmem fun row _ x hx hsa hid => ?_
    rw [← h.eq_of_groupId hg hx (hsa.groupId.symm.trans hid)]
    exact hsa.expected ▸ List.Subset.refl _

end Restore

section Runs

variable {s t : System}

theorem Inv.step (h : Inv s) {l : Label} (hs : Step s l t) (hu : Unraced s l) :
    Inv t ∧ KeepsSealed s t := by
  have hsub : ∀ {t : System}, t.groups = s.groups → KeepsSealed s t :=
    fun hg => .of_subset h (hg ▸ List.Subset.refl _)
  cases l with
  | delegate parent workspace fresh => exact h.delegate hs
  | enroll id child =>
    rw [Step, next] at hs
    split_ifs at hs
    cases hs
    exact h.enroll hu
  | sealGroup parent =>
    cases hs
    exact h.sealGroup parent
  | record id child deleted summary event =>
    cases hs
    exact h.record child deleted summary event
  | claim id => exact h.claim hs
  | wakeFails i => exact h.wakeFails hs
  | wakeSucceeds i => exact h.wakeSucceeds hs
  | finalize i => exact h.finalize hs
  | beginCancel parent id => exact h.beginCancel hs
  | finishCancel parent id => exact h.finishCancel hs
  | cancelParent parent =>
    cases hs
    exact h.cancelParent parent
  | cancelChild id child =>
    cases hs
    exact h.cancelChild hu
  | read workspace =>
    cases hs
    exact ⟨{ h with }, hsub rfl⟩
  | restore pass =>
    obtain ⟨rows, hr, rfl⟩ := Option.map_eq_some_iff.mp hs
    rw [h.restore (hu rows hr)]
    exact ⟨h, hsub rfl⟩
  | persist => exact h.persist hs
  | restart => exact h.restart hs

theorem Inv.mirrors (h : Inv s) (hk : NoneCancelling s) : Stored s := by
  intro hla ho
  have hs : ∀ id, stored s id = lookup groupId id s.rows :=
    fun id => stored_of_untouched (by simp [hla])
  refine ⟨h.rowKeys, fun row hrow => ?_, fun g hg hsto => ?_⟩
  · have hl := (hs row.groupId).trans (lookup_of_mem h.rowKeys hrow)
    obtain ⟨g, hg, hid⟩ := h.stray _ row hl
    exact ⟨g, hg, h.row g hg row (hid ▸ hl)⟩
  · cases hrow : stored s g.groupId with
    | some row =>
      refine ⟨row, ?_, (h.row g hg row hrow).2⟩
      rw [hs] at hrow
      exact mem_of_lookup hrow
    | none =>
      rcases h.missing g hg hrow with hnot | ⟨d, hd, -, hst⟩ | hmem
      · rw [hsto] at hnot
        cases hnot
      · rw [ho d hd] at hst
        simp at hst
      · exact absurd hmem (hk g hg)

theorem Inv.settles (h : Inv s) : Settles s where
  exclusive := h.exclusive
  ready d hd := by
    have hr := h.ready d hd
    rw [isGroupComplete, Bool.and_eq_true, all_eq_true] at hr
    exact ⟨hr.1, hr.2.2⟩
  recorded := h.recorded
  gone id hid hmem := by
    obtain ⟨g, hg, heq⟩ := mem_map.mp hmem
    exact h.gone id hid g hg heq

/-- In every run without races each group is delivered by one delivery at a time, and then
complete; each child that was recorded is in it once; a group that is gone stays gone; the
store mirrors the registry when nothing is on its way and no group is being cancelled; and no
step adds a child to a group that is sealed. -/
theorem groups_settle_once {labels : List Label}
    (hrun : Run (fun s l t => Step s l t ∧ Unraced s l) .initial labels s) :
    Settles s ∧ (NoneCancelling s → Stored s) ∧ ∀ l t, Step s l t → Unraced s l →
      KeepsSealed s t := by
  have hinv : Inv s := hrun.invariant (I := Inv) .initial
    fun _ _ _ hinv hs => (hinv.step hs.1 hs.2).1
  exact ⟨hinv.settles, hinv.mirrors, fun l t hs hu => (hinv.step hs hu).2⟩

end Runs

def done : Event := ⟨"e", "completed"⟩

/-- A child is cancelled, a restore pass finds the group in the registry, the wake fails once, and
the group is settled while the parent opens the next one. -/
def settledOnce : List Label :=
  [.delegate "p" "w" "g", .enroll "g" "a", .enroll "g" "b", .cancelChild "g" "b", .sealGroup "p",
    .persist, .persist, .persist, .persist, .read "w", .restore 0, .record "g" "a" false "ok" done,
    .persist, .claim "g", .wakeFails 0, .claim "g", .wakeSucceeds 1, .delegate "p" "w" "h",
    .enroll "h" "c", .persist, .finalize 1, .persist]

def settled : System := (settledOnce.foldlM unracedNext .initial).get (by decide +kernel)

theorem groups_settle_once_after_failed_wake :
    settled.lane = [] ∧ (∀ d ∈ settled.deliveries, d.stage = .over) ∧
      settled.rows.map groupId = ["h"] ∧ settled.gone = ["g"] ∧ Settles settled ∧ Stored settled :=
  have hrun : Run (fun s l t => Step s l t ∧ Unraced s l) .initial settledOnce settled :=
    .of_foldlM (fun _ _ _ => step_of_unracedNext) (Option.some_get _).symm
  have h := groups_settle_once hrun
  ⟨by decide +kernel, by decide +kernel, by decide +kernel, by decide +kernel, h.1,
    h.2.1 (show ∀ g ∈ settled.groups, _ ∉ settled.cancelling by decide +kernel)⟩

/-- A delegation that found the group enrols its child after the seal; a child is cancelled
whose completion is recorded; a restore pass adds a group that was settled since it read; a
scoped cancel has deleted the row of a group that it has not removed yet. -/
theorem races_unsettle : (∃ s t, Run Step .initial
      [.delegate "p" "w" "g", .enroll "g" "a", .delegate "p" "w" "h", .sealGroup "p"] s ∧
      Step s (.enroll "g" "b") t ∧ ¬ KeepsSealed s t) ∧ (∃ s, Run Step .initial
      [.delegate "p" "w" "g", .enroll "g" "a", .enroll "g" "b", .record "g" "a" false "ok" done,
        .cancelChild "g" "a"] s ∧ ¬ Settles s) ∧ (∃ s, Run Step .initial
      [.delegate "p" "w" "g", .enroll "g" "a", .sealGroup "p", .persist, .persist, .read "w",
        .record "g" "a" false "ok" done, .persist, .claim "g", .wakeSucceeds 0, .persist,
        .finalize 0, .restore 0] s ∧ ¬ Settles s) ∧
    ∃ s, Run (fun s l t => Step s l t ∧ Unraced s l) .initial
      [.delegate "p" "w" "g", .enroll "g" "a", .persist, .beginCancel "p" "g", .persist] s ∧
        ¬ Stored s := by
  refine ⟨⟨_, _, .of_foldlM (f := next) (fun _ _ _ h => h) rfl, rfl, fun h => ?_⟩,
    ⟨_, .of_foldlM (f := next) (fun _ _ _ h => h) rfl, fun h => ?_⟩,
    ⟨_, .of_foldlM (f := next) (fun _ _ _ h => h) rfl, fun h => ?_⟩,
    ⟨_, .of_foldlM (f := unracedNext) (fun _ _ _ => step_of_unracedNext) rfl, fun h => ?_⟩⟩
  · have hsub := h _ (mem_cons_self ..) rfl _ (mem_cons_self ..) rfl
    have hmem : "b" ∈ ["a"] := hsub (show "b" ∈ ["a", "b"] by decide)
    exact absurd hmem (by decide)
  · have hmem : "a" ∈ ["b"] := (h.recorded _ (mem_cons_self ..)).expected _ (mem_cons_self ..) rfl
    exact absurd hmem (by decide)
  · exact h.gone "g" (mem_cons_self ..) (show "g" ∈ ["g"] by decide)
  · obtain ⟨row, hrow, -⟩ := (h rfl (by decide)).stored _ (mem_cons_self ..) rfl
    cases hrow

end Intentd.DelegationGroups
