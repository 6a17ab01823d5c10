import Mathlib.Data.List.Perm.Subperm

/-!
# Lists whose elements have distinct keys

In a list whose elements have distinct keys a position, an element and a key say the
same. Removing at a position is filtering by key, changing at a position is changing by
key, and an element can be absorbed by another one: the one is changed, the other gone.
-/
namespace Intentd.KeyedLists
open List

variable {α κ : Type} [DecidableEq κ] (key : α → κ) {l : List α}

/-- `f` is gone and `e` is changed by `g`. -/
def absorb (l : List α) (e f : α) (g : α → α) : List α :=
  (l.filter fun x => key x ≠ key f).map fun x => if key x = key e then g x else x

variable {key} {a f e : α} {k : κ} {g : α → α} {l₁ l₂ : List α} {i : ℕ} {p : α → Bool}

theorem filter_key_ne_of_notMem (hk : k ∉ l.map key) : (l.filter fun x => key x ≠ k) = l := by
  refine filter_eq_self.mpr fun x hx => ?_
  simp only [ne_eq, decide_not, Bool.not_eq_eq_eq_not, Bool.not_true, decide_eq_false_iff_not]
  exact fun h => hk (h ▸ mem_map_of_mem hx)

theorem map_key_of_notMem (hk : k ∉ l.map key) :
    (l.map fun x => if key x = k then g x else x) = l := by
  conv_rhs => rw [← map_id l]
  refine map_congr_left fun x hx => ?_
  have hne : key x ≠ k := fun h => hk (h ▸ mem_map_of_mem hx)
  simp [hne]

theorem map_key_split (hnodup : ((l₁ ++ a :: l₂).map key).Nodup) (g : α → α) :
    ((l₁ ++ a :: l₂).map fun x => if key x = key a then g x else x) = l₁ ++ g a :: l₂ := by
  have hk := (nodup_cons.mp ((perm_middle.map key).nodup_iff.mp hnodup)).1
  rw [map_append, mem_append, not_or] at hk
  rw [map_append, map_cons, if_pos rfl, map_key_of_notMem hk.1, map_key_of_notMem hk.2]

omit [DecidableEq κ] in
theorem split_at (hi : l[i]? = some a) :
    ∃ l₁ l₂, l = l₁ ++ a :: l₂ ∧ (∀ x, l.set i x = l₁ ++ x :: l₂) ∧ l.eraseIdx i = l₁ ++ l₂ ∧
      ∀ g, l.modify i g = l₁ ++ g a :: l₂ := by
  induction l generalizing i with
  | nil => cases hi
  | cons x rest ih =>
    cases i with
    | zero =>
      cases hi
      exact ⟨[], rest, rfl, fun _ => rfl, rfl, fun _ => rfl⟩
    | succ i =>
      obtain ⟨l₁, l₂, rfl, hset, he, hm⟩ := ih (by simpa using hi)
      exact ⟨x :: l₁, l₂, rfl, fun y => by simp [hset], by simp [he], fun g => by simp [hm]⟩

omit [DecidableEq κ] in
theorem insertIdx_append_length (l₁ l₂ : List α) (a : α) :
    (l₁ ++ l₂).insertIdx l₁.length a = l₁ ++ a :: l₂ := by
  induction l₁ with
  | nil => simp
  | cons x l₁ ih => simp [ih]

theorem absorb_keys_sublist (hg : ∀ x, key (g x) = key x) :
    ((absorb key l e f g).map key).Sublist (l.map key) := by
  have hk : (absorb key l e f g).map key = (l.filter fun x => key x ≠ key f).map key := by
    rw [absorb, map_map]
    refine map_congr_left fun x _ => ?_
    rw [Function.comp_apply]
    split
    · exact hg x
    · rfl
  rw [hk]
  exact filter_sublist.map key

omit [DecidableEq κ] in
theorem filter_halves (h₁ : ∀ x ∈ l₁, p x = true) (h₂ : ∀ x ∈ l₂, p x = false) :
    (l₁ ++ l₂).filter p = l₁ ∧ (l₁ ++ l₂).filter (!p ·) = l₂ := by
  constructor
  · rw [filter_append, filter_eq_self.mpr h₁,
      filter_eq_nil_iff.mpr fun x hx => by simp [h₂ x hx], append_nil]
  · rw [filter_append, filter_eq_nil_iff.mpr fun x hx => by simp [h₁ x hx],
      filter_eq_self.mpr fun x hx => by simp [h₂ x hx], nil_append]

omit [DecidableEq κ] in
theorem key_ne_of_append (hnodup : ((l₁ ++ l₂).map key).Nodup) :
    ∀ x ∈ l₁, ∀ y ∈ l₂, key x ≠ key y := by
  rw [map_append] at hnodup
  exact fun x hx y hy =>
    (nodup_append.mp hnodup).2.2 _ (mem_map_of_mem hx) _ (mem_map_of_mem hy)

theorem filter_keys_left (hnodup : ((l₁ ++ l₂).map key).Nodup) :
    ((l₁ ++ l₂).filter fun x => key x ∈ l₁.map key) = l₁ ∧
      ((l₁ ++ l₂).filter fun x => !decide (key x ∈ l₁.map key)) = l₂ := by
  refine filter_halves (fun x hx => decide_eq_true (mem_map_of_mem hx)) fun x hx => ?_
  refine decide_eq_false fun hmem => ?_
  obtain ⟨y, hy, hxy⟩ := mem_map.mp hmem
  exact key_ne_of_append hnodup y hy x hx hxy

theorem filter_keys_right (hnodup : ((l₁ ++ l₂).map key).Nodup) :
    ((l₁ ++ l₂).filter fun x => key x ∈ l₂.map key) = l₂ ∧
      ((l₁ ++ l₂).filter fun x => !decide (key x ∈ l₂.map key)) = l₁ := by
  have hl : ∀ x ∈ l₁, (!decide (key x ∈ l₂.map key)) = true := by
    intro x hx
    rw [Bool.not_eq_true', decide_eq_false_iff_not]
    intro hmem
    obtain ⟨y, hy, hxy⟩ := mem_map.mp hmem
    exact key_ne_of_append hnodup x hx y hy hxy.symm
  have hr : ∀ x ∈ l₂, (!decide (key x ∈ l₂.map key)) = false := by
    intro x hx
    simpa using ⟨x, hx, rfl⟩
  have hh := filter_halves hl hr
  simp only [Bool.not_not] at hh
  exact ⟨hh.2, hh.1⟩

section

variable (hnodup : (l.map key).Nodup)
include hnodup

theorem findIdx?_key (ha : a ∈ l) :
    ∃ i, l.findIdx? (fun x => key x = key a) = some i ∧ l[i]? = some a := by
  induction l with
  | nil => cases ha
  | cons x rest ih =>
    rw [map_cons, nodup_cons] at hnodup
    by_cases hx : key x = key a
    · refine ⟨0, by simp [List.findIdx?_cons, hx], ?_⟩
      rcases mem_cons.mp ha with rfl | hr
      · rfl
      · exact absurd (hx ▸ mem_map_of_mem hr) hnodup.1
    · have hr : a ∈ rest := (mem_cons.mp ha).resolve_left fun h => hx (congrArg key h.symm)
      obtain ⟨i, hi, hget⟩ := ih hnodup.2 hr
      exact ⟨i + 1, by simp [List.findIdx?_cons, hx, hi], by simpa using hget⟩

theorem map_key_perm (ha : a ∈ l) : ∃ rest, l.Perm (a :: rest) ∧
      ∀ g : α → α, (l.map fun x => if key x = key a then g x else x).Perm (g a :: rest) := by
  obtain ⟨l₁, l₂, rfl⟩ := append_of_mem ha
  refine ⟨l₁ ++ l₂, perm_middle, fun g => ?_⟩
  rw [map_key_split hnodup]
  exact perm_middle

theorem eraseIdx_eq_filter (hi : l[i]? = some f) :
    l.eraseIdx i = l.filter fun x => key x ≠ key f := by
  obtain ⟨l₁, l₂, rfl, -, he, -⟩ := split_at hi
  have hk := (nodup_cons.mp ((perm_middle.map key).nodup_iff.mp hnodup)).1
  rw [he, filter_append, filter_cons_of_neg (by simp), ← filter_append, filter_key_ne_of_notMem hk]

theorem modify_eq_map (hi : l[i]? = some e) (g : α → α) :
    l.modify i g = l.map fun x => if key x = key e then g x else x := by
  obtain ⟨l₁, l₂, rfl, -, -, hm⟩ := split_at hi
  rw [hm, map_key_split hnodup]

/-- Taking an element out at a position and changing another one, whose position may have
moved by that. -/
theorem eraseIdx_modify_eq_absorb {older index : ℕ}
    (he : l[older]? = some e) (hf : l[index]? = some f) (hne : key e ≠ key f) (g : α → α) :
    (if index < older then older - 1 else older) < (l.eraseIdx index).length ∧
      (l.eraseIdx index).modify (if index < older then older - 1 else older) g =
        absorb key l e f g := by
  have hs : (l.eraseIdx index)[if index < older then older - 1 else older]? = some e := by
    rw [List.getElem?_eraseIdx]
    have hin : index ≠ older := by
      rintro rfl
      exact hne (congrArg key (Option.some.inj (he.symm.trans hf)))
    split_ifs with hlt h h
    · omega
    · rwa [Nat.sub_add_cancel (by omega)]
    · exact he
    · omega
  refine ⟨(List.getElem?_eq_some_iff.mp hs).1, ?_⟩
  have hsub : ((l.eraseIdx index).map key).Nodup :=
    hnodup.sublist ((eraseIdx_sublist l index).map key)
  rw [modify_eq_map hsub hs, eraseIdx_eq_filter hnodup hf, absorb]

theorem absorb_perm (he : e ∈ l) (hf : f ∈ l) (hne : key e ≠ key f) :
    ∃ rest, l.Perm (e :: f :: rest) ∧ (∀ x ∈ rest, key x ≠ key e ∧ key x ≠ key f) ∧
      ∀ g, (absorb key l e f g).Perm (g e :: rest) := by
  obtain ⟨rest, hp⟩ : ∃ rest, l.Perm (e :: f :: rest) := by
    obtain ⟨l₁, l₂, rfl⟩ := append_of_mem hf
    have he₁ : e ∈ l₁ ++ l₂ := by
      rcases mem_append.mp he with h | h
      · exact mem_append_left _ h
      · exact mem_append_right _ ((mem_cons.mp h).resolve_left fun h => hne (congrArg key h))
    obtain ⟨l₃, l₄, hl⟩ := append_of_mem he₁
    refine ⟨l₃ ++ l₄, perm_middle.trans ?_⟩
    rw [hl]
    exact (perm_middle.cons f).trans (.swap e f _)
  have hk := (hp.map key).nodup_iff.mp hnodup
  simp only [map_cons, nodup_cons, mem_cons, not_or] at hk
  refine ⟨rest, hp, fun x hx => ?_, fun g => ?_⟩
  · exact ⟨fun h => hk.1.2 (h ▸ mem_map_of_mem hx), fun h => hk.2.1 (h ▸ mem_map_of_mem hx)⟩
  have hfi : (e :: f :: rest).filter (fun x => key x ≠ key f) = e :: rest := by
    rw [filter_cons_of_pos (by simpa using hne), filter_cons_of_neg (by simp),
      filter_key_ne_of_notMem hk.2.1]
  refine ((hp.filter _).map _).trans (.of_eq ?_)
  rw [hfi, map_cons, if_pos rfl, map_key_of_notMem hk.1.2]

end

theorem findIdx_congr {q : α → Bool} (h : ∀ a ∈ l, p a = q a) : l.findIdx p = l.findIdx q := by
  induction l with
  | nil => rfl
  | cons a l ih =>
    rw [findIdx_cons, findIdx_cons, h a (mem_cons_self ..),
      ih fun b hb => h b (mem_cons_of_mem _ hb)]

section KeepFirst

variable (key)

/-- The first element of each key, of the keys that were not seen. -/
def keepFirst : List κ → List α → List α
  | _, [] => []
  | seen, a :: l => if key a ∈ seen then keepFirst seen l else a :: keepFirst (key a :: seen) l

variable {key} {seen : List κ}

theorem keepFirst_sublist : (keepFirst key seen l).Sublist l := by
  induction l generalizing seen with
  | nil => exact .slnil
  | cons a l ih =>
    rw [keepFirst]
    split_ifs
    · exact ih.cons a
    · exact ih.cons_cons a

theorem notMem_seen {a : α} (ha : a ∈ keepFirst key seen l) : key a ∉ seen := by
  induction l generalizing seen with
  | nil => cases ha
  | cons b l ih =>
    rw [keepFirst] at ha
    split_ifs at ha with hs
    · exact ih ha
    · rcases mem_cons.mp ha with rfl | ha
      · exact hs
      · exact fun h => ih ha (mem_cons_of_mem _ h)

theorem exists_mem_keepFirst {a : α} (ha : a ∈ l) (hs : key a ∉ seen) :
    ∃ b ∈ keepFirst key seen l, key b = key a := by
  induction l generalizing seen with
  | nil => cases ha
  | cons b l ih =>
    rw [keepFirst]
    by_cases hb : key b ∈ seen
    · rw [if_pos hb]
      refine ih ((mem_cons.mp ha).resolve_left ?_) hs
      rintro rfl
      exact hs hb
    · rw [if_neg hb]
      by_cases heq : key b = key a
      · exact ⟨b, mem_cons_self .., heq⟩
      · obtain ⟨c, hc, hkey⟩ := ih ((mem_cons.mp ha).resolve_left fun h => heq (h ▸ rfl))
          fun hmem => (mem_cons.mp hmem).elim (fun h => heq h.symm) hs
        exact ⟨c, mem_cons_of_mem _ hc, hkey⟩

theorem keepFirst_pairwise : (keepFirst key seen l).Pairwise fun a b =>
    l.findIdx (fun x => key x = key a) < l.findIdx (fun x => key x = key b) := by
  induction l generalizing seen with
  | nil => exact .nil
  | cons a l ih =>
    have hs : ∀ b, key b ≠ key a → (a :: l).findIdx (fun x => key x = key b) =
        l.findIdx (fun x => key x = key b) + 1 := by
      intro b hb
      rw [findIdx_cons, decide_eq_false hb.symm]
      rfl
    rw [keepFirst]
    split_ifs with hse
    · refine List.Pairwise.imp_of_mem (fun hb hc hlt => ?_) ih
      rw [hs _ fun h => notMem_seen hb (h ▸ hse), hs _ fun h => notMem_seen hc (h ▸ hse)]
      exact Nat.succ_lt_succ hlt
    · have hne : ∀ b ∈ keepFirst key (key a :: seen) l, key b ≠ key a :=
        fun b hb h => notMem_seen hb (h ▸ mem_cons_self ..)
      refine pairwise_cons.mpr ⟨fun b hb => ?_, ih.imp_of_mem fun hb hc hlt => ?_⟩
      · rw [hs b (hne b hb), findIdx_cons, decide_eq_true rfl]
        exact Nat.succ_pos _
      · rw [hs _ (hne _ hb), hs _ (hne _ hc)]
        exact Nat.succ_lt_succ hlt

theorem keepFirst_nodup : ((keepFirst key seen l).map key).Nodup := by
  refine pairwise_map.mpr (keepFirst_pairwise.imp fun hlt heq => ?_)
  rw [heq] at hlt
  exact absurd hlt (Nat.lt_irrefl _)

end KeepFirst

end Intentd.KeyedLists
