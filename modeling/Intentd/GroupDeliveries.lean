import Intentd.GroupPersistence
import Intentd.KeyedLists

/-!
# Deliveries of a group

One delivery at a time holds a group, since a claim marks it, and only the delivery that has
it takes the mark away. What a delivery does next leaves the registry as it is, until it ends
with the removal of the group, whose row is gone by then.
-/
namespace Intentd.DelegationGroups
open KeyedTables KeyedLists List Option

variable {i : ℕ} {id : String} {g : DelegationGroup}

section Deliveries

variable {s : System} {d : Delivery} {deliveries : List Delivery} {stage : Stage}

section

variable (h : ((deliveries.filter (·.stage ≠ .over)).map (·.group.groupId)).Nodup)
include h

theorem exclusive_set (hd : deliveries[i]? = some d) (hl : d.stage ≠ .over) (stage : Stage) :
    (((deliveries.set i { d with stage := stage }).filter (·.stage ≠ .over)).map
      (·.group.groupId)).Nodup := by
  obtain ⟨l₁, l₂, hs, hset, -, -⟩ := split_at hd
  rw [hset]
  rw [hs, filter_append, filter_cons_of_pos (by simpa using hl)] at h
  rw [filter_append]
  by_cases ho : stage = .over
  · rw [filter_cons_of_neg (by simp [ho])]
    exact h.sublist (((sublist_cons_self ..).append_left _).map _)
  · rw [filter_cons_of_pos (by simpa using ho)]
    simpa using h

theorem ne_of_exclusive (hd : deliveries[i]? = some d) (hl : d.stage ≠ .over) :
    ∀ d' ∈ deliveries.set i { d with stage := .over }, d'.stage ≠ .over →
      d'.group.groupId ≠ d.group.groupId := by
  obtain ⟨l₁, l₂, hs, hset, -, -⟩ := split_at hd
  rw [hset]
  rw [hs, filter_append, filter_cons_of_pos (by simpa using hl)] at h
  intro d' hmem hl' heq
  have hk := (perm_middle.map fun x : Delivery => x.group.groupId).nodup_iff.mp h
  rw [map_cons, nodup_cons, map_append] at hk
  refine hk.1 ?_
  rw [← heq]
  rcases mem_append.mp hmem with hmem | hmem
  · refine mem_append_left _ (mem_map_of_mem (mem_filter.mpr ⟨hmem, ?_⟩))
    simpa using hl'
  · rcases mem_cons.mp hmem with rfl | hmem
    · exact absurd rfl hl'
    · refine mem_append_right _ (mem_map_of_mem (mem_filter.mpr ⟨hmem, ?_⟩))
      simpa using hl'

end

theorem forall_setStage {P : DelegationGroup → Prop} (h : ∀ d ∈ s.deliveries, P d.group)
    (hd : s.deliveries[i]? = some d) (stage : Stage) : ∀ d' ∈ s.setStage i d stage, P d'.group := by
  intro d' hmem
  rcases mem_or_eq_of_mem_set hmem with hmem | rfl
  · exact h d' hmem
  · exact h d (mem_of_getElem? hd)

/-- A delivery that was not settling stops, or does not begin to settle. -/
theorem settling_of_setStage (hd : s.deliveries[i]? = some d)
    (hs : stage = .settling ∨ stage = .settled → d.stage = .settling ∨ d.stage = .settled)
    (h : Settling { s with deliveries := s.setStage i d stage } id) :
    Settling s id := by
  obtain ⟨d', hmem, hid, hs'⟩ := h
  rcases mem_or_eq_of_mem_set hmem with hmem | rfl
  · exact ⟨d', hmem, hid, hs'⟩
  · exact ⟨d, mem_of_getElem? hd, hid, hs hs'⟩

/-- A delivery that goes on settling, or that is of another group. -/
theorem setStage_of_settling (hd : s.deliveries[i]? = some d) (h : Settling s id)
    (hst : id = d.group.groupId → d.stage = .settling ∨ d.stage = .settled →
      stage = .settling ∨ stage = .settled) :
    Settling { s with deliveries := s.setStage i d stage } id := by
  obtain ⟨d', hmem, hid, hs'⟩ := h
  obtain ⟨l₁, l₂, hs, hset, -, -⟩ := split_at hd
  have hm' : ∀ x, x ∈ s.setStage i d stage ↔ x ∈ l₁ ∨ x = { d with stage := stage } ∨ x ∈ l₂ := by
    rw [System.setStage, hset]
    simp
  rw [hs] at hmem
  rcases mem_append.mp hmem with hmem | hmem
  · exact ⟨d', (hm' d').mpr (.inl hmem), hid, hs'⟩
  · rcases mem_cons.mp hmem with rfl | hmem
    · exact ⟨_, (hm' _).mpr (.inr (.inl rfl)), hid, hst hid.symm hs'⟩
    · exact ⟨d', (hm' d').mpr (.inr (.inr hmem)), hid, hs'⟩

theorem Inv.mark (h : Inv s) (hg : g ∈ s.groups) (b : Bool)
    (hrea : b = true → g.sealed = true ∧ g.isGroupComplete = true)
    (hus : ∀ d ∈ deliveries, d.group.groupId ∈ s.used)
    (hex : ((deliveries.filter (·.stage ≠ .over)).map (·.group.groupId)).Nodup)
    (hcl : ∀ d ∈ deliveries, d.stage ≠ .over →
      d.group.groupId = g.groupId ∧ b = true ∨ d.group.groupId ≠ g.groupId ∧ d ∈ s.deliveries)
    (hde : ∀ d ∈ deliveries, d.group.sealed = true ∧ d.group.isGroupComplete = true)
    (hse : ∀ id, Settling { s with deliveries := deliveries } id ↔ Settling s id) :
    Inv { s with
      groups := update DelegationGroup.groupId g.groupId ({ · with delivered := b }) s.groups
      deliveries := deliveries } := by
  have hsa : ∀ row, SameRow g row → SameRow { g with delivered := b } row :=
    fun row hrow => { hrow with }
  have hke : ∀ x : DelegationGroup, ({ x with delivered := b } : DelegationGroup).groupId =
      x.groupId := fun _ => rfl
  have hre := h.recorded g hg
  refine { h with
    keys := (keys_update hke).symm ▸ h.keys
    groupsUsed := forall_update_groups h hg (fun x hx _ => h.groupsUsed x hx) (h.groupsUsed g hg)
    deliveriesUsed := hus
    gone := fun id hid =>
      forall_update_groups h hg (fun x hx _ => h.gone id hid x hx) (h.gone id hid g hg)
    stray := fun id row hrow => ?_
    row := forall_update_groups h hg (fun x hx _ => h.row x hx)
      fun row hrow => (h.row g hg row hrow).imp_right (hsa row)
    missing := forall_update_groups h hg
      (fun x hx _ hno => (h.missing x hx hno).imp_right (Or.imp_left (hse _).mpr))
      fun hno => (h.missing g hg hno).imp_right (Or.imp_left (hse _).mpr)
    cancelling := fun c hc =>
      forall_update_groups h hg (fun x hx _ => h.cancelling c hc x hx) (h.cancelling c hc g hg)
    exclusive := hex
    claimed := fun d hd hli => forall_update_groups h hg (fun x hx hne hid => ?_) fun hid => ?_
    settling := fun id hid => h.settling id ((hse id).mp hid)
    delivered := forall_update_groups h hg (fun x hx _ => h.delivered x hx) hrea
    ready := hde
    recorded := forall_update_groups h hg (fun x hx _ => h.recorded x hx) { hre with } }
  · obtain ⟨x, hx, hid⟩ := h.stray id row hrow
    refine ⟨_, mem_map_of_mem hx, ?_⟩
    split <;> exact hid
  · rcases hcl d hd hli with ⟨hsa, -⟩ | ⟨-, hd⟩
    · exact absurd (hid.trans hsa) hne
    · exact h.claimed d hd hli x hx hid
  · rcases hcl d hd hli with ⟨-, hb⟩ | ⟨hot, -⟩
    · exact hb
    · exact absurd hid.symm hot

structure Delivers (s : System) (deliveries : List Delivery) : Prop where
  used : ∀ d ∈ deliveries, d.group.groupId ∈ s.used
  ready : ∀ d ∈ deliveries, d.group.sealed = true ∧ d.group.isGroupComplete = true
  exclusive : ((deliveries.filter (·.stage ≠ .over)).map (·.group.groupId)).Nodup
  claimed : ∀ d ∈ deliveries, d.stage ≠ .over → ∀ g ∈ s.groups,
    g.groupId = d.group.groupId → g.delivered = true

theorem Inv.delivers (h : Inv s) : Delivers s s.deliveries :=
  { h with used := h.deliveriesUsed }

theorem Inv.delivers_setStage (h : Inv s) (hd : s.deliveries[i]? = some d) (hl : d.stage ≠ .over)
    (stage : Stage) : Delivers s (s.setStage i d stage) := by
  refine ⟨?_, ?_, exclusive_set h.exclusive hd hl stage, fun d' hd' hl' => ?_⟩
  · exact forall_setStage (P := fun g => g.groupId ∈ s.used) h.deliveriesUsed hd stage
  · exact forall_setStage (P := fun g => g.sealed = true ∧ g.isGroupComplete = true)
      h.ready hd stage
  · rcases mem_or_eq_of_mem_set hd' with hd' | rfl
    · exact h.claimed d' hd' hl'
    · exact h.claimed d (mem_of_getElem? hd) hl

/-- The registry stays as it is. A row may be deleted of a group that is being settled or
cancelled. -/
theorem Inv.advance (h : Inv s) {lane : List GroupPersistOp} {rows : List DelegationGroup}
    {cancelling : List (String × String)} (hr : (rows.map DelegationGroup.groupId).Nodup)
    (hs : ∀ id, stored { s with lane := lane, rows := rows } id = stored s id ∨
      stored { s with lane := lane, rows := rows } id = none ∧ ∀ g ∈ s.groups, g.groupId = id →
        Settling { s with deliveries := deliveries } id ∨ (g.parentAgentId, id) ∈ cancelling)
    (hse : ∀ id, Settling { s with deliveries := deliveries } id →
      stored { s with lane := lane, rows := rows } id = none)
    (hset : ∀ g ∈ s.groups, Settling s g.groupId →
      Settling { s with deliveries := deliveries } g.groupId)
    (hca : ∀ g ∈ s.groups, (g.parentAgentId, g.groupId) ∈ s.cancelling →
      (g.parentAgentId, g.groupId) ∈ cancelling)
    (hc : ∀ x ∈ cancelling, x.2 ∈ s.used ∧ ∀ g ∈ s.groups, g.groupId = x.2 → g.parentAgentId = x.1)
    (hd : Delivers s deliveries) :
    Inv { s with
      lane := lane
      rows := rows
      deliveries := deliveries
      cancelling := cancelling } := by
  refine { h with
    rowKeys := hr
    deliveriesUsed := hd.used
    cancellingUsed := fun x hx => (hc x hx).1
    stray := fun id row hrow => ?_
    row := fun g hg row hrow => ?_
    missing := fun g hg hn => ?_
    cancelling := fun x hx => (hc x hx).2
    exclusive := hd.exclusive
    claimed := hd.claimed
    settling := hse
    ready := hd.ready }
  · rcases hs id with heq | ⟨heq, -⟩
    · exact h.stray id row (heq.symm.trans hrow)
    · cases heq.symm.trans hrow
  · rcases hs g.groupId with heq | ⟨heq, -⟩
    · exact h.row g hg row (heq.symm.trans hrow)
    · cases heq.symm.trans hrow
  · rcases hs g.groupId with heq | ⟨-, hwhy⟩
    · exact (h.missing g hg (heq.symm.trans hn)).imp_right (Or.imp (hset g hg) (hca g hg))
    · exact .inr (hwhy g hg rfl)

theorem Inv.cancels (h : Inv s) : ∀ x ∈ s.cancelling, x.2 ∈ s.used ∧ ∀ g ∈ s.groups,
    g.groupId = x.2 → g.parentAgentId = x.1 :=
  fun x hx => ⟨h.cancellingUsed x hx, h.cancelling x hx⟩

end Deliveries

section Attempt

variable {s t : System}

theorem find_groupId (hf : s.groups.find? (fun g => g.groupId = id) = some g) :
    g ∈ s.groups ∧ g.groupId = id :=
  ⟨mem_of_lookup hf, key_of_lookup hf⟩

theorem Inv.claim (h : Inv s) (hs : s.takeGroupIfReady id = some t) : Inv t ∧ KeepsSealed s t := by
  obtain ⟨g, hf, hs⟩ := bind_eq_some_iff.mp hs
  split_ifs at hs with hr
  cases hs
  simp only [Bool.and_eq_true, Bool.not_eq_true'] at hr
  obtain ⟨⟨hse, hu⟩, hc⟩ := hr
  obtain ⟨hg, rfl⟩ := find_groupId hf
  rw [modifyFirst_key h.keys]
  have ho : ∀ d ∈ s.deliveries, d.stage ≠ .over → d.group.groupId ≠ g.groupId := by
    intro d hd hl heq
    rw [h.claimed d hd hl g hg heq.symm] at hu
    cases hu
  constructor
  · refine h.mark hg true (fun _ => ⟨hse, hc⟩) ?_ ?_ ?_ ?_ ?_
    · refine forall_mem_append.mpr ⟨h.deliveriesUsed, ?_⟩
      exact forall_mem_singleton.mpr (h.groupsUsed g hg)
    · rw [filter_append, filter_cons_of_pos (by simp), filter_nil, map_append, map_singleton,
        ← concat_eq_append]
      refine h.exclusive.concat fun hin => ?_
      obtain ⟨d, hd, heq⟩ := mem_map.mp hin
      obtain ⟨hd, hl⟩ := mem_filter.mp hd
      exact ho d hd (of_decide_eq_true hl) heq
    · intro d hd hl
      rcases mem_append.mp hd with hd | hd
      · exact .inr ⟨ho d hd hl, hd⟩
      · rw [mem_singleton.mp hd]
        exact .inl ⟨rfl, rfl⟩
    · refine forall_mem_append.mpr ⟨h.ready, ?_⟩
      exact forall_mem_singleton.mpr ⟨hse, hc⟩
    · simp [Settling]
  · exact .of_update h hg (f := ({ · with delivered := true })) (fun _ => rfl) rfl
      fun _ => List.Subset.refl _

theorem Inv.wakeFails (h : Inv s) (hst : s.wakeFails i = some t) : Inv t ∧ KeepsSealed s t := by
  obtain ⟨d, hd, hst⟩ := bind_eq_some_iff.mp hst
  split_ifs at hst with hsta
  cases hst
  have hl : d.stage ≠ .over := by simp [hsta]
  have hde := h.delivers_setStage hd hl .over
  have hs : ∀ id, Settling { s with deliveries := s.setStage i d .over } id ↔
      Settling s id := fun id =>
    ⟨settling_of_setStage hd (by simp), fun hid => setStage_of_settling hd hid (by simp [hsta])⟩
  cases hf : s.groups.find? fun g => g.groupId = d.group.groupId with
  | none =>
    rw [System.releaseGroupDelivery, modifyFirst_of_find?_eq_none hf]
    refine ⟨h.advance h.rowKeys (fun _ => .inl rfl) ?_ ?_ (fun _ _ hc => hc) h.cancels hde,
      .of_eq h rfl⟩
    · exact fun id hid => h.settling id ((hs id).mp hid)
    · exact fun g _ hid => (hs _).mpr hid
  | some g =>
    obtain ⟨hg, hid⟩ := find_groupId hf
    rw [System.releaseGroupDelivery, modifyFirst_key h.keys, ← hid]
    constructor
    · refine h.mark hg false nofun hde.used hde.exclusive (fun d' hd' hl' => ?_) hde.ready hs
      have hne := ne_of_exclusive h.exclusive hd hl d' hd' hl'
      refine .inr ⟨hid ▸ hne, ?_⟩
      rcases mem_or_eq_of_mem_set hd' with hd' | rfl
      · exact hd'
      · exact absurd rfl hne
    · exact .of_update h hg (f := ({ · with delivered := false })) (fun _ => rfl) rfl
        fun _ => List.Subset.refl _

theorem Inv.wakeSucceeds (h : Inv s) (hs : s.wakeSucceeds i = some t) :
    Inv t ∧ KeepsSealed s t := by
  obtain ⟨d, hd, hs⟩ := Option.bind_eq_some_iff.mp hs
  split_ifs at hs with hsta
  cases hs
  have hst : ∀ id, stored { s with lane := s.lane ++ [.settle d.group.groupId i] } id =
      if id = d.group.groupId then none else stored s id := fun id => stored_settle rfl rfl
  have hown : Settling { s with deliveries := s.setStage i d .settling } d.group.groupId :=
    ⟨_, mem_set (List.getElem?_eq_some_iff.mp hd).1 _, rfl, .inl rfl⟩
  refine ⟨h.advance h.rowKeys (fun id => ?_) (fun id hid => ?_)
    (fun g hg hid => setStage_of_settling hd hid (by simp)) (fun g _ hc => hc) h.cancels
    (h.delivers_setStage hd (by simp [hsta]) .settling), .of_eq h rfl⟩
  · rw [hst]
    split
    · rename_i heq
      exact .inr ⟨rfl, fun _ _ _ => .inl (heq ▸ hown)⟩
    · exact .inl rfl
  · rw [hst]
    split
    · rfl
    · rename_i hne
      obtain ⟨d', hd', hid', hs'⟩ := hid
      rcases mem_or_eq_of_mem_set hd' with hd' | rfl
      · exact h.settling id ⟨d', hd', hid', hs'⟩
      · exact absurd hid'.symm hne

theorem Inv.finalize (h : Inv s) (hs : s.finalizeGroupDelivery i = some t) :
    Inv t ∧ KeepsSealed s t := by
  obtain ⟨d, hd, hs⟩ := bind_eq_some_iff.mp hs
  split_ifs at hs with hst
  cases hs
  have hmem := mem_of_getElem? hd
  have hl : d.stage ≠ .over := by simp [hst]
  have hn : stored s d.group.groupId = none :=
    h.settling _ ⟨d, hmem, rfl, .inr hst⟩
  -- The group goes first, and then its delivery ends.
  have hr : Inv { s with
      groups := erase DelegationGroup.groupId d.group.groupId s.groups
      gone := d.group.groupId :: s.gone } := by
    simp only [erase, ne_eq, decide_not]
    refine h.remove (fun g => g.groupId = d.group.groupId) ?_ (fun _ _ => rfl) ?_
      (List.Subset.refl _) fun _ _ _ hc => hc
    · intro g _ hid
      rw [of_decide_eq_true hid]
      exact hn
    · intro id hid
      rcases mem_cons.mp hid with rfl | hid
      · exact .inr ⟨h.deliveriesUsed d hmem, fun g _ heq => decide_eq_true heq⟩
      · exact .inl hid
  refine ⟨hr.advance hr.rowKeys (fun _ => .inl rfl) ?_ ?_ (fun _ _ hc => hc)
    hr.cancels (hr.delivers_setStage hd hl .over), .of_subset h (filter_subset_self _)⟩
  · intro id hid
    exact h.settling id (settling_of_setStage hd (by simp) hid)
  · intro g hg hid
    have hne : g.groupId ≠ d.group.groupId := of_decide_eq_true (mem_filter.mp hg).2
    exact setStage_of_settling hd hid fun heq => absurd heq hne

end Attempt

end Intentd.DelegationGroups
