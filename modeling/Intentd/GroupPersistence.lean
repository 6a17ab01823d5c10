import Intentd.DelegationGroups

/-!
# The registry, the lane and the store

What the store will hold once the lane is drained is one function of the state, and every
critical section changes it together with the registry: a change of a group puts its row, a
removal erases it, a settlement erases it while the group is still claimed. So the three
copies are compared by one invariant, between the registry and the drained store.
-/
namespace Intentd.DelegationGroups
open KeyedTables List GroupPersistOp

variable {s : System} {g : DelegationGroup}

section Drained

def drained (s : System) : List DelegationGroup := s.lane.foldl apply s.rows

def stored (s : System) (id : String) : Option DelegationGroup :=
  lookup DelegationGroup.groupId id (drained s)

variable {t : System} {id : String} {op : GroupPersistOp} {rows : List DelegationGroup}
  {id' : String}

theorem overwrite_groupId (row g : DelegationGroup) : (overwrite row g).groupId = row.groupId := rfl

theorem drained_append (hl : t.lane = s.lane ++ [op]) (hr : t.rows = s.rows) :
    drained t = op.apply (drained s) := by
  rw [drained, hl, hr, foldl_append]
  rfl

theorem stored_delete (hl : t.lane = s.lane ++ [.delete id']) (hr : t.rows = s.rows) :
    stored t id = if id = id' then none else stored s id := by
  rw [stored, drained_append hl hr]
  exact lookup_erase

theorem stored_settle {i : ℕ} (hl : t.lane = s.lane ++ [.settle id' i])
    (hr : t.rows = s.rows) : stored t id = if id = id' then none else stored s id := by
  rw [stored, drained_append hl hr]
  exact lookup_erase

theorem stored_upsert (hl : t.lane = s.lane ++ [.upsert g]) (hr : t.rows = s.rows) : stored t id =
      if id = g.groupId then some (((stored s g.groupId).map (overwrite · g)).getD g)
      else stored s id := by
  rw [stored, drained_append hl hr]
  exact lookup_put overwrite_groupId

theorem stored_deletes {ids : List String} (hl : t.lane = s.lane ++ ids.map .delete)
    (hr : t.rows = s.rows) : stored t id = if id ∈ ids then none else stored s id := by
  have hf : ∀ (ids : List String) (rows : List DelegationGroup),
      lookup DelegationGroup.groupId id ((ids.map GroupPersistOp.delete).foldl
        GroupPersistOp.apply rows) =
      if id ∈ ids then none else lookup DelegationGroup.groupId id rows := by
    intro ids
    induction ids with
    | nil => intro rows; simp
    | cons first ids ih =>
      intro rows
      rw [map_cons, foldl_cons, ih, GroupPersistOp.apply, lookup_erase]
      by_cases hid : id = first <;> simp [hid]
  rw [stored, drained, hl, hr, foldl_append]
  exact hf ids _

/-- A group that no write in the lane is about is stored as it will be. -/
theorem stored_of_untouched (h : ∀ op ∈ s.lane, op.groupId ≠ id) :
    stored s id = lookup DelegationGroup.groupId id s.rows := by
  have hf : ∀ (lane : List GroupPersistOp) (rows : List DelegationGroup),
      (∀ op ∈ lane, op.groupId ≠ id) →
      lookup DelegationGroup.groupId id (lane.foldl GroupPersistOp.apply rows) =
        lookup DelegationGroup.groupId id rows := by
    intro lane
    induction lane with
    | nil => intro rows _; rfl
    | cons op lane ih =>
      intro rows hl
      obtain ⟨hop, hr⟩ := forall_mem_cons.mp hl
      rw [foldl_cons, ih _ hr]
      cases op with
      | upsert g =>
        have hne : id ≠ g.groupId := Ne.symm hop
        rw [GroupPersistOp.apply, lookup_put overwrite_groupId, if_neg hne]
      | delete id' | settle id' i =>
        have hne : id ≠ id' := Ne.symm hop
        rw [GroupPersistOp.apply, lookup_erase, if_neg hne]
  exact hf s.lane s.rows h

theorem apply_keys_nodup (op : GroupPersistOp) (h : (rows.map DelegationGroup.groupId).Nodup) :
    ((op.apply rows).map DelegationGroup.groupId).Nodup := by
  cases op with
  | upsert g => exact keys_put_nodup overwrite_groupId h
  | delete id | settle id i =>
    rw [GroupPersistOp.apply, keys_erase]
    exact h.filter _

end Drained

/-- A delivery has queued the settlement of the group. -/
def Settling (s : System) (id : String) : Prop :=
  ∃ d ∈ s.deliveries, d.group.groupId = id ∧ (d.stage = .settling ∨ d.stage = .settled)

structure Inv (s : System) : Prop where
  keys : (s.groups.map DelegationGroup.groupId).Nodup
  rowKeys : (s.rows.map DelegationGroup.groupId).Nodup
  groupsUsed : ∀ g ∈ s.groups, g.groupId ∈ s.used
  deliveriesUsed : ∀ d ∈ s.deliveries, d.group.groupId ∈ s.used
  logUsed : ∀ r ∈ s.log, r.groupId ∈ s.used
  goneUsed : ∀ id ∈ s.gone, id ∈ s.used
  cancellingUsed : ∀ x ∈ s.cancelling, x.2 ∈ s.used
  gone : ∀ id ∈ s.gone, ∀ g ∈ s.groups, g.groupId ≠ id
  stray : ∀ id row, stored s id = some row → ∃ g ∈ s.groups, g.groupId = id
  row : ∀ g ∈ s.groups, ∀ row, stored s g.groupId = some row → isStorable g = true ∧ SameRow g row
  missing : ∀ g ∈ s.groups, stored s g.groupId = none →
    isStorable g = false ∨ Settling s g.groupId ∨ (g.parentAgentId, g.groupId) ∈ s.cancelling
  cancelling : ∀ x ∈ s.cancelling, ∀ g ∈ s.groups, g.groupId = x.2 → g.parentAgentId = x.1
  exclusive : ((s.deliveries.filter (·.stage ≠ .over)).map (·.group.groupId)).Nodup
  claimed : ∀ d ∈ s.deliveries, d.stage ≠ .over → ∀ g ∈ s.groups,
    g.groupId = d.group.groupId → g.delivered = true
  settling : ∀ id, Settling s id → stored s id = none
  delivered : ∀ g ∈ s.groups, g.delivered = true → g.sealed = true ∧ g.isGroupComplete = true
  ready : ∀ d ∈ s.deliveries, d.group.sealed = true ∧ d.group.isGroupComplete = true
  recorded : ∀ g ∈ s.groups, Recorded s.log g

theorem Inv.initial : Inv .initial := by
  constructor <;> simp [System.initial, stored, drained, KeyedTables.lookup, Settling]

variable {f : DelegationGroup → DelegationGroup}

theorem Inv.eq_of_groupId (h : Inv s) {g' : DelegationGroup} (hg : g ∈ s.groups)
    (hg' : g' ∈ s.groups) (hid : g'.groupId = g.groupId) : g' = g :=
  inj_on_of_nodup_map h.keys hg' hg hid

/-- A group of the new registry is the changed one, or was there before under another id. -/
theorem forall_update_groups (h : Inv s) (hg : g ∈ s.groups) {P : DelegationGroup → Prop}
    (ho : ∀ x ∈ s.groups, x.groupId ≠ g.groupId → P x) (hnew : P (f g)) :
    ∀ x ∈ update DelegationGroup.groupId g.groupId f s.groups, P x := by
  intro x hx
  obtain ⟨y, hy, rfl⟩ := mem_map.mp hx
  split
  · rename_i hid
    exact h.eq_of_groupId hg hy hid ▸ hnew
  · rename_i hid
    exact ho y hy hid

/-- A group that no delivery has claimed changes, and what it has become is queued. -/
theorem Inv.change (h : Inv s) (hg : g ∈ s.groups) {log : List Recording}
    (hid : ∀ x, (f x).groupId = x.groupId) (hwo : (f g).workspaceId = g.workspaceId)
    (hpa : (f g).parentAgentId = g.parentAgentId) (hun : g.delivered = false)
    (hsti : (f g).delivered = false) (hsto : isStorable (f g) = true)
    (hlo : ∀ r ∈ log, r.groupId ∈ s.used) (hre : Recorded log (f g))
    (hot : ∀ x ∈ s.groups, x.groupId ≠ g.groupId → Recorded log x) :
    Inv { s with
      groups := update DelegationGroup.groupId g.groupId f s.groups
      lane := s.lane ++ [.upsert (f g)]
      log := log } := by
  have hst : ∀ id, stored { s with lane := s.lane ++ [.upsert (f g)] } id =
      if id = g.groupId then
        some (((stored s g.groupId).map (overwrite · (f g))).getD (f g))
      else stored s id := by
    intro id
    rw [← hid g]
    exact stored_upsert rfl rfl
  have hunc : ∀ d ∈ s.deliveries, d.stage ≠ .over → g.groupId ≠ d.group.groupId := by
    intro d hd hli heq
    rw [h.claimed d hd hli g hg heq] at hun
    cases hun
  refine { h with
    keys := (keys_update hid).symm ▸ h.keys
    groupsUsed := forall_update_groups h hg (fun x hx _ => h.groupsUsed x hx) ?_
    logUsed := hlo
    gone := fun id hgo => forall_update_groups h hg (fun x hx _ => h.gone id hgo x hx) ?_
    stray := fun id row hrow => ?_
    row := forall_update_groups h hg (fun x hx hne row hrow => ?_) fun row hrow => ?_
    missing := forall_update_groups h hg (fun x hx hne hno => ?_) fun hno => ?_
    cancelling := fun c hc => forall_update_groups h hg (fun x hx _ => h.cancelling c hc x hx) ?_
    claimed := fun d hd hli =>
      forall_update_groups h hg (fun x hx _ => h.claimed d hd hli x hx) fun heq => ?_
    settling := fun id hse => ?_
    delivered := forall_update_groups h hg (fun x hx _ => h.delivered x hx) fun hde => ?_
    recorded := forall_update_groups h hg hot hre }
  · rw [hid]
    exact h.groupsUsed g hg
  · rw [hid]
    exact h.gone id hgo g hg
  · replace hrow := (hst id).symm.trans hrow
    split at hrow
    · rename_i heq
      exact ⟨f g, mem_map.mpr ⟨g, hg, if_pos rfl⟩, (hid g).trans heq.symm⟩
    · rename_i hne
      obtain ⟨x, hx, hxid⟩ := h.stray id row hrow
      exact ⟨x, mem_map.mpr ⟨x, hx, if_neg (hxid ▸ hne)⟩, hxid⟩
  · replace hrow := (hst _).symm.trans hrow
    rw [if_neg hne] at hrow
    exact h.row x hx row hrow
  · replace hrow := (hst _).symm.trans hrow
    rw [if_pos (hid g), Option.some.injEq] at hrow
    subst hrow
    refine ⟨hsto, ?_⟩
    cases hold : stored s g.groupId with
    | none => exact ⟨rfl, rfl, rfl, rfl, rfl, rfl, rfl, rfl, fun hs => hs, hsti⟩
    | some old =>
      have hsa := (h.row g hg old hold).2
      exact ⟨hsa.groupId.trans (hid g).symm, hsa.workspaceId.trans hwo.symm,
        hsa.parentAgentId.trans hpa.symm, rfl, rfl, rfl, rfl, rfl, fun hs => hs, hsti⟩
  · replace hno := (hst _).symm.trans hno
    rw [if_neg hne] at hno
    exact h.missing x hx hno
  · replace hno := (hst _).symm.trans hno
    rw [if_pos (hid g)] at hno
    cases hno
  · rw [hid, hpa]
    exact h.cancelling c hc g hg
  · exact absurd ((hid g).symm.trans heq) (hunc d hd hli)
  · refine (hst id).trans ?_
    rw [if_neg]
    · exact h.settling id hse
    · rintro rfl
      obtain ⟨d, hd, hdid, hsta⟩ := hse
      refine hunc d hd (fun hov => ?_) hdid.symm
      simp [hov] at hsta
  · rw [hsti] at hde
    cases hde

theorem Inv.remove (h : Inv s) (p : DelegationGroup → Bool) {lane : List GroupPersistOp}
    {gone : List String} {cancelling : List (String × String)}
    (hr : ∀ g ∈ s.groups, p g = true → stored { s with lane := lane } g.groupId = none)
    (hk : ∀ id, (∀ g ∈ s.groups, p g = true → g.groupId ≠ id) →
      stored { s with lane := lane } id = stored s id)
    (hgo : ∀ id ∈ gone, id ∈ s.gone ∨ id ∈ s.used ∧ ∀ g ∈ s.groups, g.groupId = id → p g = true)
    (hc : cancelling ⊆ s.cancelling)
    (hst : ∀ g ∈ s.groups, p g = false → (g.parentAgentId, g.groupId) ∈ s.cancelling →
      (g.parentAgentId, g.groupId) ∈ cancelling) :
    Inv { s with
      groups := s.groups.filter (!p ·)
      lane := lane
      gone := gone
      cancelling := cancelling } := by
  have hmem : ∀ g ∈ s.groups.filter (!p ·), g ∈ s.groups ∧ p g = false := by
    intro g hg
    obtain ⟨hg, hp⟩ := mem_filter.mp hg
    exact ⟨hg, by simpa using hp⟩
  have ho : ∀ g ∈ s.groups.filter (!p ·),
      stored { s with lane := lane } g.groupId = stored s g.groupId := by
    intro g hg
    refine hk _ fun x hx hp hid => ?_
    obtain ⟨hg, hnot⟩ := hmem g hg
    rw [← h.eq_of_groupId hg hx hid, hp] at hnot
    cases hnot
  refine { h with
    keys := h.keys.sublist (filter_sublist.map _)
    groupsUsed := fun g hg => h.groupsUsed g (hmem g hg).1
    goneUsed := fun id hid => (hgo id hid).elim (h.goneUsed id) And.left
    cancellingUsed := fun x hx => h.cancellingUsed x (hc hx)
    gone := fun id hid g hg => ?_
    stray := fun id row hrow => ?_
    row := fun g hg row hrow => h.row g (hmem g hg).1 row ((ho g hg).symm.trans hrow)
    missing := fun g hg hn => ?_
    cancelling := fun x hx g hg => h.cancelling x (hc hx) g (hmem g hg).1
    claimed := fun d hd hl g hg => h.claimed d hd hl g (hmem g hg).1
    settling := fun id hid => ?_
    delivered := fun g hg => h.delivered g (hmem g hg).1
    recorded := fun g hg => h.recorded g (hmem g hg).1 }
  · obtain ⟨hg, hnot⟩ := hmem g hg
    rcases hgo id hid with hid | ⟨-, hall⟩
    · exact h.gone id hid g hg
    · intro heq
      rw [hall g hg heq] at hnot
      cases hnot
  · have hn : ∀ g ∈ s.groups, p g = true → g.groupId ≠ id := by
      rintro g hg hp rfl
      cases (hr g hg hp).symm.trans hrow
    obtain ⟨g, hg, hid⟩ := h.stray id row ((hk id hn).symm.trans hrow)
    refine ⟨g, mem_filter.mpr ⟨hg, ?_⟩, hid⟩
    rw [Bool.not_eq_true']
    exact Bool.eq_false_iff.mpr fun hp => hn g hg hp hid
  · refine (h.missing g (hmem g hg).1 ((ho g hg).symm.trans hn)).imp_right (Or.imp_right ?_)
    exact hst g (hmem g hg).1 (hmem g hg).2
  · by_cases hs : ∃ g ∈ s.groups, p g = true ∧ g.groupId = id
    · obtain ⟨g, hg, hp, rfl⟩ := hs
      exact hr g hg hp
    · refine (hk id fun g hg hp hid => hs ⟨g, hg, hp, hid⟩).trans ?_
      exact h.settling id hid

section Sealed

variable {t : System}

theorem KeepsSealed.of_subset (h : Inv s) (hsub : t.groups ⊆ s.groups) : KeepsSealed s t := by
  intro g hg _ g' hg' hid
  rw [h.eq_of_groupId hg (hsub hg') hid]
  exact List.Subset.refl _

theorem KeepsSealed.of_eq (h : Inv s) (hg : t.groups = s.groups) : KeepsSealed s t :=
  .of_subset h (hg ▸ List.Subset.refl _)

theorem KeepsSealed.of_update (h : Inv s) (hg : g ∈ s.groups) (hid : ∀ x, (f x).groupId = x.groupId)
    (hgr : t.groups = update DelegationGroup.groupId g.groupId f s.groups)
    (hf : g.sealed = true → (f g).expectedAgentIds ⊆ g.expectedAgentIds) : KeepsSealed s t := by
  intro x hx hs
  rw [hgr]
  refine forall_update_groups h hg (fun x' hx' _ hxid => ?_) fun hxid => ?_
  · rw [h.eq_of_groupId hx hx' hxid]
    exact List.Subset.refl _
  · rw [hid] at hxid
    rw [h.eq_of_groupId hg hx hxid.symm] at hs ⊢
    exact hf hs

end Sealed

end Intentd.DelegationGroups
