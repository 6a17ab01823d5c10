import Intentd.GroupDeliveries

/-!
# Changes of the registry

A child is enrolled or recorded while its group is not claimed: a claimed group is sealed and
complete, so it expects nobody who is not recorded. A group that is cancelled, or whose last
child is, leaves with its row.
-/
namespace Intentd.DelegationGroups
open KeyedTables List DelegationGroup

attribute [local simp] isStorable

variable {log : List Recording} {g : DelegationGroup} {child : String}

section Recorded

variable (h : Recorded log g)
include h

theorem Recorded.mem_iff (child : String) :
    child ∈ (log.filter (·.groupId = g.groupId)).map Recording.child ↔
      g.isRecorded child = true := by
  rw [isRecorded, Bool.or_eq_true, decide_eq_true_eq, decide_eq_true_eq, h.completed, h.deleted]
  simp only [mem_map, mem_filter, Bool.not_eq_true']
  constructor
  · rintro ⟨r, hr, rfl⟩
    cases hd : r.deleted with
    | false => exact .inl ⟨r, ⟨hr, hd⟩, rfl⟩
    | true => exact .inr ⟨r, ⟨hr, hd⟩, rfl⟩
  · rintro (⟨r, ⟨hr, -⟩, rfl⟩ | ⟨r, ⟨hr, -⟩, rfl⟩)
    · exact ⟨r, hr, rfl⟩
    · exact ⟨r, hr, rfl⟩

/-- Only what is expected changes, and everything recorded still is. -/
theorem Recorded.expect {g' : DelegationGroup} (hid : g'.groupId = g.groupId)
    (he : ∀ child ∈ g.expectedAgentIds, g.isRecorded child = true →
      child ∈ g'.expectedAgentIds) (hc : g'.completedAgentIds = g.completedAgentIds)
    (hd : g'.deletedAgentIds = g.deletedAgentIds)
    (hs : g'.eventSummaries = g.eventSummaries) (hev : g'.rawEvents = g.rawEvents) :
    Recorded log g' := by
  refine ⟨?_, fun r hr hrid => ?_, ?_, ?_, ?_, ?_⟩
  · rw [hid]
    exact h.once
  · rw [hid] at hrid
    refine he _ (h.expected r hr hrid) ((h.mem_iff _).mp (mem_map_of_mem ?_))
    exact mem_filter.mpr ⟨hr, decide_eq_true hrid⟩
  · rw [hc, hid, h.completed]
  · rw [hd, hid, h.deleted]
  · rw [hs, hid, h.summaries]
  · rw [hev, hid, h.events]

theorem Recorded.record (he : child ∈ g.expectedAgentIds)
    (hnew : g.isRecorded child = false) (deleted : Bool) (summary : String) (event : Event) :
    Recorded (log ++ [⟨g.groupId, child, deleted, summary, event⟩])
      (g.record child deleted summary event) := by
  have hf : (log ++ [(⟨g.groupId, child, deleted, summary, event⟩ : Recording)]).filter
      (·.groupId = (g.record child deleted summary event).groupId) =
      log.filter (·.groupId = g.groupId) ++ [⟨g.groupId, child, deleted, summary, event⟩] := by
    simp [filter_append, DelegationGroup.record]
    rfl
  refine ⟨?_, ?_, ?_, ?_, ?_, ?_⟩
  · rw [hf, map_append, map_singleton, ← concat_eq_append]
    refine h.once.concat fun hin => ?_
    rw [h.mem_iff, hnew] at hin
    cases hin
  · exact forall_mem_append.mpr ⟨h.expected, forall_mem_singleton.mpr fun _ => he⟩
  · rw [hf, filter_append, map_append, ← h.completed]
    cases deleted <;> simp [DelegationGroup.record]
  · rw [hf, filter_append, map_append, ← h.deleted]
    cases deleted <;> simp [DelegationGroup.record]
  · rw [hf, map_append, ← h.summaries]
    rfl
  · rw [hf, map_append, ← h.events]
    rfl

theorem Recorded.other {r : Recording} (hid : g.groupId ≠ r.groupId) : Recorded (log ++ [r]) g := by
  have hf : (log ++ [r]).filter (·.groupId = g.groupId) = log.filter (·.groupId = g.groupId) := by
    simp [filter_append, Ne.symm hid]
  refine ⟨?_, fun r' hr' hid' => ?_, ?_, ?_, ?_, ?_⟩
  · rw [hf]
    exact h.once
  · rcases mem_append.mp hr' with hr' | hr'
    · exact h.expected r' hr' hid'
    · rw [mem_singleton.mp hr'] at hid'
      exact absurd hid'.symm hid
  · rw [hf, h.completed]
  · rw [hf, h.deleted]
  · rw [hf, h.summaries]
  · rw [hf, h.events]

end Recorded

section Changes

variable {s t : System} {id : String} {parent : String}

section

variable (h : Inv s)
include h

theorem changeAndPersist_eq (hf : s.groups.find? (fun g => g.groupId = id) = some g)
    (f : DelegationGroup → DelegationGroup) :
    s.changeAndPersist id f = { s with
      groups := update groupId g.groupId f s.groups
      lane := s.lane ++ [.upsert (f g)] } := by
  rw [System.changeAndPersist, hf, (find_groupId hf).2]
  rw [modifyFirst_key h.keys]

/-- Nobody but its delivery changes a group that is claimed. -/
theorem Inv.undelivered (hg : g ∈ s.groups) (he : child ∈ g.expectedAgentIds)
    (hnew : g.isRecorded child = false) : g.delivered = false := by
  refine Bool.eq_false_iff.mpr fun hd => ?_
  have hc := (h.delivered g hg hd).2
  rw [isGroupComplete, Bool.and_eq_true, all_eq_true] at hc
  rw [hc.2 child he] at hnew
  cases hnew

theorem Inv.delegate {workspace fresh : String}
    (hs : s.getOrCreateDelegationGroup parent workspace fresh = some t) :
    Inv t ∧ KeepsSealed s t := by
  unfold System.getOrCreateDelegationGroup at hs
  split at hs
  · cases hs
    exact ⟨{ h with }, .of_eq h rfl⟩
  · split_ifs at hs with hf
    cases hs
    have hnew : ∀ g ∈ s.groups, g.groupId ≠ fresh :=
      fun g hg heq => hf (heq ▸ h.groupsUsed g hg)
    have hn : stored s fresh = none := by
      cases hst : stored s fresh with
      | none => rfl
      | some row =>
        obtain ⟨g, hg, heq⟩ := h.stray fresh row hst
        exact absurd heq (hnew g hg)
    have hca : ∀ {P : DelegationGroup → Prop} {new : DelegationGroup},
        (∀ g ∈ s.groups, P g) → P new → ∀ g ∈ s.groups ++ [new], P g :=
      fun hold hnew => forall_mem_append.mpr ⟨hold, forall_mem_singleton.mpr hnew⟩
    refine ⟨{ h with
      keys := ?_
      groupsUsed := hca (fun g hg => mem_cons_of_mem _ (h.groupsUsed g hg)) (mem_cons_self ..)
      deliveriesUsed := fun d hd => mem_cons_of_mem _ (h.deliveriesUsed d hd)
      logUsed := fun r hr => mem_cons_of_mem _ (h.logUsed r hr)
      goneUsed := fun id hid => mem_cons_of_mem _ (h.goneUsed id hid)
      cancellingUsed := fun c hc => mem_cons_of_mem _ (h.cancellingUsed c hc)
      gone := fun id hid => hca (h.gone id hid) fun heq => hf ?_
      stray := fun id row hrow => ?_
      row := hca h.row fun row hrow => ?_
      missing := hca h.missing fun _ => .inl rfl
      cancelling := fun c hc =>
        hca (h.cancelling c hc) fun heq => absurd (h.cancellingUsed c hc) (heq ▸ hf)
      claimed := fun d hd hl =>
        hca (h.claimed d hd hl) fun heq => absurd (h.deliveriesUsed d hd) (heq ▸ hf)
      delivered := hca h.delivered nofun
      recorded := hca h.recorded ?_ }, ?_⟩
    · rw [map_append, map_singleton, ← concat_eq_append]
      refine h.keys.concat fun hin => ?_
      obtain ⟨g, hg, heq⟩ := mem_map.mp hin
      exact hnew g hg heq
    · have heq : fresh = id := heq
      exact heq ▸ h.goneUsed id hid
    · obtain ⟨g, hg, heq⟩ := h.stray id row hrow
      exact ⟨g, mem_append_left _ hg, heq⟩
    · cases hn.symm.trans hrow
    · have hno : ∀ r ∈ s.log, r.groupId ≠ fresh := fun r hr hid => hf (hid ▸ h.logUsed r hr)
      have hn : s.log.filter (·.groupId = fresh) = [] :=
        filter_eq_nil_iff.mpr fun r hr hid => hno r hr (of_decide_eq_true hid)
      refine ⟨?_, fun r hr hid => absurd hid (hno r hr), ?_, ?_, ?_, ?_⟩ <;> simp [hn]
    · intro g hg _
      exact hca (fun g' hg' hid => h.eq_of_groupId hg hg' hid ▸ List.Subset.refl _)
        fun hid => absurd hid.symm (hnew g hg)

theorem Inv.enroll (hun : ∀ g ∈ s.groups, g.groupId = id → g.sealed = false) :
    Inv (s.enrollChildInGroup id child) ∧ KeepsSealed s (s.enrollChildInGroup id child) := by
  unfold System.enrollChildInGroup
  cases hf : s.groups.find? fun g => g.groupId = id with
  | none =>
    rw [System.changeAndPersist, hf]
    exact ⟨h, .of_eq h rfl⟩
  | some g =>
    rw [changeAndPersist_eq h hf]
    obtain ⟨hg, hid⟩ := find_groupId hf
    have ho := hun g hg hid
    have hu : g.delivered = false := by
      refine Bool.eq_false_iff.mpr fun hde => ?_
      rw [(h.delivered g hg hde).1] at ho
      cases ho
    have hen : ∀ x : DelegationGroup, (x.enroll child).groupId = x.groupId ∧
        (x.enroll child).workspaceId = x.workspaceId ∧
        (x.enroll child).parentAgentId = x.parentAgentId ∧
        (x.enroll child).delivered = x.delivered ∧ child ∈ (x.enroll child).expectedAgentIds ∧
        x.expectedAgentIds ⊆ (x.enroll child).expectedAgentIds ∧
        (x.enroll child).completedAgentIds = x.completedAgentIds ∧
        (x.enroll child).deletedAgentIds = x.deletedAgentIds ∧
        (x.enroll child).eventSummaries = x.eventSummaries ∧
        (x.enroll child).rawEvents = x.rawEvents := by
      intro x
      unfold DelegationGroup.enroll
      split <;> simp_all
    have hx := hen g
    refine ⟨h.change hg (fun x => (hen x).1) hx.2.1 hx.2.2.1 hu
      (hx.2.2.2.1.trans hu) ?_ h.logUsed ?_ fun x hx _ => h.recorded x hx, ?_⟩
    · have hne := ne_nil_of_mem hx.2.2.2.2.1
      simp [hne]
    · obtain ⟨hgid, -, -, -, -, hsub, hc, hd, hs, he⟩ := hx
      exact (h.recorded g hg).expect hgid (fun child hch _ => hsub hch) hc hd hs he
    · refine .of_update h hg (fun x => (hen x).1) rfl fun hse => ?_
      rw [ho] at hse
      cases hse

theorem Inv.sealGroup (parent : String) :
    Inv (s.sealGroupForParent parent) ∧ KeepsSealed s (s.sealGroupForParent parent) := by
  unfold System.sealGroupForParent
  cases hf : s.groups.find? (·.isOpen parent) with
  | none => exact ⟨h, .of_eq h rfl⟩
  | some g =>
    have hg := mem_of_find?_eq_some hf
    have ho := List.find?_some hf
    simp only [isOpen, Bool.and_eq_true, Bool.not_eq_eq_eq_not, Bool.not_true] at ho
    rw [modifyFirst_eq_update h.keys hf]
    have hr := h.recorded g hg
    refine ⟨h.change hg (fun _ => rfl) rfl rfl ho.2 ho.2 (by simp) h.logUsed
      { hr with } fun x hx _ => h.recorded x hx, ?_⟩
    exact .of_update h hg (f := ({ · with sealed := true })) (fun _ => rfl) rfl
      fun _ => List.Subset.refl _

theorem Inv.record (child : String) (deleted : Bool) (summary : String) (event : Event) :
    Inv (s.recordGroupChildCompletion id child deleted summary event) ∧
      KeepsSealed s (s.recordGroupChildCompletion id child deleted summary event) := by
  have hs : Inv s ∧ KeepsSealed s s := ⟨h, .of_eq h rfl⟩
  unfold System.recordGroupChildCompletion
  cases hf : s.groups.find? fun g => g.groupId = id with
  | none => exact hs
  | some g =>
    obtain ⟨hg, hid⟩ := find_groupId hf
    dsimp only
    split_ifs with he hre
    · exact hs
    · have hnew := Bool.eq_false_iff.mpr hre
      have hu := h.undelivered hg he hnew
      rw [changeAndPersist_eq h hf, ← hid]
      refine ⟨h.change hg (fun _ => rfl) rfl rfl hu hu ?_ ?_
        ((h.recorded g hg).record he hnew deleted summary event)
        fun x hx hne => (h.recorded x hx).other hne, ?_⟩
      · have hne := ne_nil_of_mem he
        simp [DelegationGroup.record, hne]
      · exact forall_mem_append.mpr ⟨h.logUsed, forall_mem_singleton.mpr (h.groupsUsed g hg)⟩
      · exact .of_update h hg (f := (·.record child deleted summary event)) (fun _ => rfl) rfl
          fun _ => List.Subset.refl _
    · exact hs

theorem Inv.beginCancel (hst : s.beginCancel parent id = some t) : Inv t ∧ KeepsSealed s t := by
  unfold System.beginCancel at hst
  split_ifs at hst with hany
  cases hst
  obtain ⟨g, hg, hm⟩ := any_eq_true.mp hany
  simp only [Bool.and_eq_true, decide_eq_true_eq] at hm
  obtain ⟨rfl, rfl⟩ := hm
  have hs : ∀ id, stored { s with lane := s.lane ++ [.delete g.groupId] } id =
      if id = g.groupId then none else stored s id := fun id => stored_delete rfl rfl
  refine ⟨h.advance h.rowKeys (fun id => ?_) (fun id hid => ?_) (fun x _ hid => hid)
    (fun x _ hc => mem_cons_of_mem _ hc) ?_ h.delivers, .of_eq h rfl⟩
  · rw [hs]
    split
    · rename_i heq
      refine .inr ⟨rfl, fun x hx hid => .inr ?_⟩
      rw [h.eq_of_groupId hg hx (hid.trans heq), heq]
      exact mem_cons_self ..
    · exact .inl rfl
  · rw [hs, h.settling id hid, ite_self]
  · refine forall_mem_cons.mpr ⟨⟨h.groupsUsed g hg, fun x hx hid => ?_⟩, h.cancels⟩
    exact h.eq_of_groupId hg hx hid ▸ rfl

theorem Inv.delete (hg : g ∈ s.groups) {p : DelegationGroup → Bool}
    {cancelling : List (String × String)} (hp : ∀ x ∈ s.groups, p x = true ↔ x.groupId = g.groupId)
    (hc : cancelling ⊆ s.cancelling)
    (hst : ∀ x ∈ s.groups, x.groupId ≠ g.groupId → (x.parentAgentId, x.groupId) ∈ s.cancelling →
      (x.parentAgentId, x.groupId) ∈ cancelling) :
    Inv { s with
      groups := s.groups.filter (!p ·)
      lane := s.lane ++ [.delete g.groupId]
      gone := g.groupId :: s.gone
      cancelling := cancelling } := by
  have hs : ∀ id, stored { s with lane := s.lane ++ [.delete g.groupId] } id =
      if id = g.groupId then none else stored s id := fun id => stored_delete rfl rfl
  refine h.remove p (fun x hx hpx => ?_) (fun id hid => ?_) ?_ hc fun x hx hpx => ?_
  · rw [hs, if_pos ((hp x hx).mp hpx)]
  · rw [hs, if_neg (Ne.symm (hid g hg ((hp g hg).mpr rfl)))]
  · refine forall_mem_cons.mpr ⟨.inr ⟨h.groupsUsed g hg, ?_⟩, fun id hid => .inl hid⟩
    exact fun x hx heq => (hp x hx).mpr heq
  · refine hst x hx fun heq => ?_
    rw [(hp x hx).mpr heq] at hpx
    cases hpx

theorem Inv.finishCancel (hs : s.removeGroupWithWatches parent id = some t) :
    Inv t ∧ KeepsSealed s t := by
  unfold System.removeGroupWithWatches at hs
  split_ifs at hs with hmem hany
  · cases hs
    obtain ⟨g, hg, hm⟩ := any_eq_true.mp hany
    simp only [Bool.and_eq_true, decide_eq_true_eq] at hm
    obtain ⟨rfl, rfl⟩ := hm
    have hkey : ∀ x : DelegationGroup,
        (decide (x.groupId = g.groupId) && decide (x.parentAgentId = g.parentAgentId)) = true →
        x.groupId = g.groupId := fun x hx => of_decide_eq_true (Bool.and_eq_true_iff.mp hx).1
    rw [eraseP_eq_filter h.keys hkey]
    refine ⟨h.delete hg (fun x hx => ⟨hkey x, fun hid => ?_⟩) (fun x hx => mem_of_mem_erase hx)
      fun x hx hne hc => ?_, .of_subset h (filter_subset_self _)⟩
    · rw [h.eq_of_groupId hg hx hid]
      simp
    · refine (mem_erase_of_ne ?_).mpr hc
      simp [hne]
  · cases hs
    refine ⟨h.advance h.rowKeys (fun _ => .inl rfl) h.settling (fun _ _ hid => hid) ?_
      (fun x hx => h.cancels x (mem_of_mem_erase hx)) h.delivers, .of_eq h rfl⟩
    intro g hg hc
    refine (mem_erase_of_ne fun heq => hany ?_).mpr hc
    rw [Prod.mk.injEq] at heq
    refine any_eq_true.mpr ⟨g, hg, ?_⟩
    simp [heq]

theorem Inv.cancelParent (parent : String) :
    Inv (s.removeGroupsForParent parent) ∧ KeepsSealed s (s.removeGroupsForParent parent) := by
  have hids : ∀ id, id ∈ (s.groups.filter fun g => g.parentAgentId = parent).map
      groupId ↔ ∃ g ∈ s.groups, g.parentAgentId = parent ∧ g.groupId = id := by
    simp [and_assoc]
  have hs : ∀ id, stored { s with lane := s.lane ++
      ((s.groups.filter fun g => g.parentAgentId = parent).map groupId).map .delete } id =
      if id ∈ (s.groups.filter fun g => g.parentAgentId = parent).map groupId then
        none
      else stored s id := fun id => stored_deletes rfl rfl
  simp only [System.removeGroupsForParent, ne_eq, decide_not]
  refine ⟨h.remove (fun g => g.parentAgentId = parent) (fun g hg hp => ?_) (fun id hid => ?_)
    (forall_mem_append.mpr ⟨fun id hid => .inr ?_, fun id hid => .inl hid⟩) (List.Subset.refl _)
    fun _ _ _ hc => hc, .of_subset h (filter_subset_self _)⟩
  · rw [hs, if_pos ((hids _).mpr ⟨g, hg, of_decide_eq_true hp, rfl⟩)]
  · rw [hs, if_neg]
    intro hmem
    obtain ⟨g, hg, hp, heq⟩ := (hids _).mp hmem
    exact hid g hg (decide_eq_true hp) heq
  · obtain ⟨g, hg, hp, rfl⟩ := (hids _).mp hid
    refine ⟨h.groupsUsed g hg, fun x hx heq => ?_⟩
    rw [h.eq_of_groupId hg hx heq]
    exact decide_eq_true hp

end

theorem filter_ne_eq_self {ids : List String} (h : child ∉ ids) : ids.filter (· ≠ child) = ids :=
  filter_eq_self.mpr fun _ hx => decide_eq_true fun heq => h (heq ▸ hx)

theorem Recorded.withoutChild (h : Recorded log g)
    (hnew : g.isRecorded child = false) : Recorded log (g.withoutChild child) := by
  have hs := Bool.or_eq_false_iff.mp hnew
  refine h.expect rfl (fun x hx hr => ?_) (filter_ne_eq_self (of_decide_eq_false hs.1))
    (filter_ne_eq_self (of_decide_eq_false hs.2)) rfl rfl
  refine mem_filter.mpr ⟨hx, decide_eq_true fun heq => ?_⟩
  rw [heq, hnew] at hr
  cases hr

theorem Inv.cancelChild (h : Inv s)
    (hun : ∀ g ∈ s.groups, g.groupId = id → g.isRecorded child = false) :
    Inv (s.removeChildFromGroup id child) ∧ KeepsSealed s (s.removeChildFromGroup id child) := by
  unfold System.removeChildFromGroup
  cases hf : s.groups.find? fun g => g.groupId = id with
  | none => exact ⟨h, .of_eq h rfl⟩
  | some g =>
    obtain ⟨hg, rfl⟩ := find_groupId hf
    have hnew := hun g hg rfl
    dsimp only
    split_ifs with hem hd
    · have hkey : ∀ x : DelegationGroup, decide (x.groupId = g.groupId) = true →
          x.groupId = g.groupId := fun _ => of_decide_eq_true
      rw [eraseP_eq_filter h.keys hkey]
      exact ⟨h.delete hg (fun x _ => decide_eq_true_iff) (List.Subset.refl _) fun _ _ _ hc => hc,
        .of_subset h (filter_subset_self _)⟩
    · -- A claimed group is complete, so the child is not one of it.
      have hnot : child ∉ g.expectedAgentIds := by
        intro he
        rw [h.undelivered hg he hnew] at hd
        cases hd
      have hs := Bool.or_eq_false_iff.mp hnew
      have hsa : g.withoutChild child = g := by
        rw [withoutChild, filter_ne_eq_self hnot, filter_ne_eq_self (of_decide_eq_false hs.1),
          filter_ne_eq_self (of_decide_eq_false hs.2)]
      rw [modifyFirst_key h.keys, update_eq_self]
      · exact ⟨h, .of_eq h rfl⟩
      · intro x hx hid
        rw [h.eq_of_groupId hg hx hid, hsa]
    · have hu := Bool.eq_false_iff.mpr hd
      rw [changeAndPersist_eq h hf]
      refine ⟨h.change hg (fun _ => rfl) rfl rfl hu hu ?_ h.logUsed
        ((h.recorded g hg).withoutChild hnew) fun x hx _ => h.recorded x hx, ?_⟩
      · simp [hem]
      · exact .of_update h hg (f := (·.withoutChild child)) (fun _ => rfl) rfl
          fun _ => filter_subset_self _

end Changes

end Intentd.DelegationGroups
