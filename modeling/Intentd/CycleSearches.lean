import Mathlib.Algebra.BigOperators.Group.Finset.Basic
import Mathlib.Algebra.GroupWithZero.Nat
import Mathlib.Data.List.Chain

/-!
# Searching a graph for a cycle through one node

A depth-first search ends at the first edge back to its root. When there is none, what it has
visited is closed under the edges and no edge of it leads to the root.
-/
namespace Intentd.CycleSearches

open List Relation

variable {α : Type}

/-- The stack is the path of the search, its end first, each node with the edges still to follow. -/
structure Search (α : Type) where
  visited : Finset α
  stack : List (α × List α)

section Definitions

variable [DecidableEq α] (out : α → List α) (root : α)

def start : Search α := ⟨{root}, [(root, out root)]⟩

/-- One pass of the loop: the search to go on with, or the answer. -/
def step (s : Search α) : Search α ⊕ Option (List α) :=
  match s.stack with
  | [] => .inr none
  | (_, []) :: stack => .inl ⟨s.visited, stack⟩
  | (node, next :: edges) :: stack =>
    if next = root then .inr (some (next :: node :: stack.map Prod.fst).reverse)
    else if next ∈ s.visited then .inl ⟨s.visited, (node, edges) :: stack⟩
    else .inl ⟨insert next s.visited, (next, out next) :: (node, edges) :: stack⟩

def run : ℕ → Search α → Option (Option (List α))
  | 0, _ => none
  | passes + 1, s =>
    match step out root s with
    | .inl t => run passes t
    | .inr answer => some answer

/-- The most passes a search can take: the edges on its stack and its nodes are left one by one,
and each node not yet visited may be entered once. -/
def passesLeft (nodes : Finset α) (s : Search α) : ℕ :=
  (s.stack.map fun e => e.2.length + 1).sum + ∑ n ∈ nodes \ s.visited, ((out n).length + 2)

def Edge (a b : α) : Prop := b ∈ out a

def Acyclic : Prop := ∀ a, ¬ TransGen (Edge out) a a

/-- A walk along the edges from a node back to itself. -/
def IsCycle (path : List α) : Prop :=
  ∃ inner, path = root :: inner ++ [root] ∧ path.IsChain (Edge out)

def Answers : Option (List α) → Prop
  | some path => IsCycle out root path
  | none => ¬ TransGen (Edge out) root root

structure Inv (s : Search α) : Prop where
  root_mem : root ∈ s.visited
  edges : ∀ e ∈ s.stack, e.2 ⊆ out e.1
  chain : (s.stack.map Prod.fst).IsChain fun b a => Edge out a b
  getLast_eq : ∀ a ∈ (s.stack.map Prod.fst).getLast?, a = root
  followed : ∀ a ∈ s.visited, ∀ b, Edge out a b →
    (b ∈ s.visited ∧ b ≠ root) ∨ ∃ e ∈ s.stack, e.1 = a ∧ b ∈ e.2

end Definitions

variable {out : α → List α} {root node next : α} {visited nodes : Finset α} {edges deps : List α}
  {stack : List (α × List α)} {s : Search α} {path : List α}

theorem IsCycle.transGen (h : IsCycle out root path) : TransGen (Edge out) root root := by
  obtain ⟨inner, rfl, hch⟩ := h
  cases inner with
  | nil => exact .single (isChain_cons_cons.mp hch).1
  | cons a inner =>
    obtain ⟨ha, hch⟩ := isChain_cons_cons.mp hch
    exact .head' ha (relationReflTransGen_of_exists_isChain_cons _ hch (by simp))

theorem inv_start : Inv out root (start out root) where
  root_mem := Finset.mem_singleton_self root
  edges := by simp [start]
  chain := .singleton root
  getLast_eq := by simp [start]
  followed a ha b hb := by
    cases Finset.mem_singleton.mp ha
    exact .inr ⟨_, mem_singleton_self _, rfl, hb⟩

theorem Inv.not_transGen (h : Inv out root ⟨visited, []⟩) : ¬ TransGen (Edge out) root root := by
  have hre : ∀ b, TransGen (Edge out) root b → b ∈ visited ∧ b ≠ root := by
    intro b hb
    induction hb with
    | single hab => simpa using h.followed root h.root_mem _ hab
    | tail _ hbc ih => simpa using h.followed _ ih.1 _ hbc
  exact fun hc => (hre root hc).2 rfl

theorem Inv.leave (h : Inv out root ⟨visited, (node, []) :: stack⟩) :
    Inv out root ⟨visited, stack⟩ where
  root_mem := h.root_mem
  edges e he := h.edges e (mem_cons_of_mem _ he)
  chain := h.chain.tail
  getLast_eq a ha := by
    cases stack with
    | nil => cases ha
    | cons e stack => exact h.getLast_eq a ha
  followed a ha b hb := by simpa using h.followed a ha b hb

theorem Inv.isCycle (h : Inv out root ⟨visited, (node, root :: edges) :: stack⟩) :
    IsCycle out root (root :: node :: stack.map Prod.fst).reverse := by
  have hch : (root :: node :: stack.map Prod.fst).IsChain fun b a => Edge out a b :=
    .cons_cons (h.edges _ mem_cons_self mem_cons_self) h.chain
  obtain ⟨front, a, hfr⟩ := (eq_nil_or_concat (node :: stack.map Prod.fst)).resolve_left nofun
  have ha : a = root := h.getLast_eq a (by simp [hfr])
  exact ⟨front.reverse, by simp [hfr, ha], isChain_reverse.mpr hch⟩

/-- An edge to a node other than the root has been followed once that node is visited. -/
theorem Inv.follow (h : Inv out root ⟨visited, (node, next :: edges) :: stack⟩)
    (hne : next ≠ root) {visited' : Finset α} (hsub : visited ⊆ visited') (hv : next ∈ visited')
    {a : α} (ha : a ∈ visited) {b : α} (hb : Edge out a b) :
    (b ∈ visited' ∧ b ≠ root) ∨ ∃ e ∈ (node, edges) :: stack, e.1 = a ∧ b ∈ e.2 := by
  rcases h.followed a ha b hb with hb | ⟨e, he, hea, hbe⟩
  · exact .inl ⟨hsub hb.1, hb.2⟩
  rcases mem_cons.mp he with rfl | he
  · rcases mem_cons.mp hbe with rfl | hbe
    · exact .inl ⟨hv, hne⟩
    · exact .inr ⟨_, mem_cons_self, hea, hbe⟩
  · exact .inr ⟨e, mem_cons_of_mem _ he, hea, hbe⟩

theorem Inv.skip (h : Inv out root ⟨visited, (node, next :: edges) :: stack⟩) (hne : next ≠ root)
    (hv : next ∈ visited) : Inv out root ⟨visited, (node, edges) :: stack⟩ where
  root_mem := h.root_mem
  edges := forall_mem_cons.mpr ((forall_mem_cons.mp h.edges).imp_left fun h => (cons_subset.mp h).2)
  chain := h.chain
  getLast_eq := h.getLast_eq
  followed _ ha _ := h.follow hne (Finset.Subset.refl _) hv ha

/-- Other edges for one node close no cycle if they close none through it. -/
theorem Acyclic.replaced {out' : α → List α} (h : Acyclic out)
    (hout : ∀ a ≠ root, ∀ b, Edge out' a b → Edge out a b)
    (hr : ¬ TransGen (Edge out') root root) : Acyclic out' := by
  have hsp : ∀ {a b}, TransGen (Edge out') a b → TransGen (Edge out) a b ∨
      ReflTransGen (Edge out') a root ∧ TransGen (Edge out') root b := by
    intro a b hab
    induction hab with
    | single hab =>
      by_cases ha : a = root
      · exact .inr ⟨ha ▸ .refl, ha ▸ .single hab⟩
      · exact .inl (.single (hout a ha _ hab))
    | @tail b c hab hbc ih =>
      rcases ih with ih | ih
      · by_cases hb : b = root
        · exact .inr ⟨hb ▸ hab.to_reflTransGen, hb ▸ .single hbc⟩
        · exact .inl (ih.tail (hout b hb c hbc))
      · exact .inr ⟨ih.1, ih.2.tail hbc⟩
  intro a haa
  rcases hsp haa with hc | ⟨har, hra⟩
  · exact h a hc
  · exact hr (hra.trans_left har)

section Passes

variable [DecidableEq α]

theorem Inv.enter (h : Inv out root ⟨visited, (node, next :: edges) :: stack⟩) (hne : next ≠ root) :
    Inv out root ⟨insert next visited, (next, out next) :: (node, edges) :: stack⟩ where
  root_mem := Finset.mem_insert_of_mem h.root_mem
  edges := by
    have := h.edges
    simp_all
  chain := .cons_cons (h.edges _ mem_cons_self mem_cons_self) h.chain
  getLast_eq := h.getLast_eq
  followed a ha b hb := by
    rcases Finset.mem_insert.mp ha with rfl | ha
    · exact .inr ⟨_, mem_cons_self, rfl, hb⟩
    · refine (h.follow hne (Finset.subset_insert ..) (Finset.mem_insert_self ..) ha hb).imp_right ?_
      exact fun ⟨e, he, hbe⟩ => ⟨e, mem_cons_of_mem _ he, hbe⟩

theorem passesLeft_enter (hmem : next ∈ nodes) (hv : next ∉ visited) :
    passesLeft out nodes ⟨insert next visited, (next, out next) :: stack⟩ <
      passesLeft out nodes ⟨visited, stack⟩ := by
  have := Finset.add_sum_erase (nodes \ visited) (fun n => (out n).length + 2)
    (Finset.mem_sdiff.mpr ⟨hmem, hv⟩)
  simp only [passesLeft, map_cons, sum_cons, Finset.sdiff_insert]
  omega

/-- One pass keeps the invariant and is one pass fewer, or gives the answer. -/
theorem Inv.pass (h : Inv out root s) (hn : ∀ a b, Edge out a b → b ∈ nodes) :
    (∃ t, step out root s = .inl t ∧ Inv out root t ∧
      passesLeft out nodes t < passesLeft out nodes s) ∨
    ∃ r, step out root s = .inr r ∧ Answers out root r := by
  obtain ⟨visited, _ | ⟨⟨node, _ | ⟨next, edges⟩⟩, stack⟩⟩ := s
  · exact .inr ⟨none, rfl, h.not_transGen⟩
  · exact .inl ⟨_, rfl, h.leave, by simp [passesLeft]⟩
  · have hlt : passesLeft out nodes ⟨visited, (node, edges) :: stack⟩ <
        passesLeft out nodes ⟨visited, (node, next :: edges) :: stack⟩ := by
      simp [passesLeft]
    have hed : Edge out node next := h.edges _ mem_cons_self mem_cons_self
    simp only [step]
    split_ifs with hr hv
    · subst hr
      exact .inr ⟨_, rfl, h.isCycle⟩
    · exact .inl ⟨_, rfl, h.skip hr hv, hlt⟩
    · exact .inl ⟨_, rfl, h.enter hr, (passesLeft_enter (hn _ _ hed) hv).trans hlt⟩

theorem Inv.answers (h : Inv out root s) (hn : ∀ a b, Edge out a b → b ∈ nodes) {passes : ℕ}
    (hp : passesLeft out nodes s < passes) :
    ∃ r, run out root passes s = some r ∧ Answers out root r := by
  induction passes generalizing s with
  | zero => omega
  | succ passes ih =>
    rw [run]
    rcases h.pass hn with ⟨t, ht, hin, hlt⟩ | ⟨r, hr, han⟩
    · rw [ht]
      exact ih hin (by omega)
    · exact ⟨r, by rw [hr], han⟩

/-- A cycle through a node leaves it by one of its edges and comes back without using another. -/
theorem transGen_update_self : TransGen (Edge (Function.update out root deps)) root root ↔
    ∃ d ∈ deps, ReflTransGen (fun a b => a ≠ root ∧ Edge out a b) d root := by
  refine TransGen.head'_iff.trans (exists_congr fun d => and_congr ?_ ⟨fun h => ?_, ?_⟩)
  · rw [Edge, Function.update_self]
  · induction h using ReflTransGen.head_induction_on with
    | refl => exact .refl
    | @head a b hab _ ih =>
      by_cases ha : a = root
      · exact ha ▸ .refl
      · rw [Edge, Function.update_of_ne ha] at hab
        exact .head ⟨ha, hab⟩ ih
  · refine ReflTransGen.mono (fun a b ⟨hne, hab⟩ => ?_) d root
    rwa [Edge, Function.update_of_ne hne]

end Passes

end Intentd.CycleSearches
