import Intentd.SpanEdits
import Mathlib.Data.List.Sort

/-!
# The three-way merge of notes

A note has a stored text, the *current* one, and a writer sends an *incoming* text that was
made from an older one, the *base*. Both texts are taken as edits of the base. Edits of the
two sides that overlap, or touch in certain ways, are put into one cluster; what a cluster
becomes depends on which sides touched it and on whether they agree.

The character diff is a library and is assumed to do what a diff does. Slices out of their
bounds, at which the program would panic, have no value here.
-/
namespace Intentd.NoteMerge
open SpanEdits List Nat

inductive Side where
  | current | incoming
  deriving DecidableEq, Repr

/-- A change of the base. A pure insertion has an empty span. -/
structure Hunk extends Edit Char where
  side : Side

open Hunk

inductive DiffOp where
  | equal (oldIndex newIndex length : ℕ)
  | delete (oldIndex oldLen newIndex : ℕ)
  | insert (oldIndex newIndex newLen : ℕ)
  | replace (oldIndex oldLen newIndex newLen : ℕ)

/-- `&text[start..stop]` -/
def slice (text : List Char) (start stop : ℕ) : Option (List Char) :=
  if start ≤ stop ∧ stop ≤ text.length then some (text.extract start stop) else none

def hunkOf (other : List Char) (side : Side) : DiffOp → Option (Option Hunk)
  | .equal .. => some none
  | .delete oldIndex oldLen _ => some (some ⟨⟨oldIndex, oldIndex + oldLen, []⟩, side⟩)
  | .insert oldIndex newIndex newLen =>
    (slice other newIndex (newIndex + newLen)).map fun text =>
      some ⟨⟨oldIndex, oldIndex, text⟩, side⟩
  | .replace oldIndex oldLen newIndex newLen =>
    (slice other newIndex (newIndex + newLen)).map fun text =>
      some ⟨⟨oldIndex, oldIndex + oldLen, text⟩, side⟩

def hunks (ops : List DiffOp) (other : List Char) (side : Side) : Option (List Hunk) :=
  (ops.mapM (hunkOf other side)).map fun found => found.filterMap id

/-- Hunks of one side in order that do not touch and turn the base into the side's text. -/
structure Turns (base other : List Char) (side : Side) (found : List Hunk) : Prop where
  side_eq : ∀ h ∈ found, h.side = side
  inside : ∀ h ∈ found, h.start ≤ h.stop ∧ h.stop ≤ base.length
  apart : found.Pairwise fun a b => a.stop < b.start
  spells : spell base (found.map toEdit) = other

structure CharDiff where
  ops : List Char → List Char → List DiffOp
  turns : ∀ base other side, ∃ found, hunks (ops base other) other side = some found ∧
    Turns base other side found

/-- The coarsest diff replaces the whole text. -/
instance : Inhabited CharDiff where
  default :=
    { ops := fun base other => [.replace 0 base.length 0 other.length]
      turns := fun base other side => by
        refine ⟨[⟨⟨0, base.length, other⟩, side⟩], ?_, ?_⟩
        · simp [hunks, hunkOf, slice]
        · exact ⟨by simp, by simp, by simp, by simp [spell, applyWithin]⟩ }

def applyHunks (base : List Char) (stop : ℕ) : ℕ → List Hunk → Option (List Char)
  | cursor, [] => slice base cursor stop
  | cursor, h :: rest => do
      let gap ← slice base cursor h.start
      let tail ← applyHunks base stop h.stop rest
      some (gap ++ h.replacement ++ tail)

/-- Hunks that are taken together, and the span they cover. -/
structure Cluster where
  start : ℕ
  stop : ℕ
  members : List Hunk

open Cluster

namespace Cluster

def has (c : Cluster) (side : Side) : Bool := c.members.any fun h => h.side = side

def of (c : Cluster) (side : Side) : List Hunk := c.members.filter fun h => h.side = side

def variant (base : List Char) (c : Cluster) (side : Side) : Option (List Char) :=
  applyHunks base c.stop c.start (c.of side)

/-- Whether the next hunk belongs to a cluster: it overlaps it, or goes on with the text of a
side that is in it, or is an insertion at the place of insertions. -/
def joins (c : Cluster) (h : Hunk) : Bool :=
  h.start < c.stop || (h.start = c.stop && c.has h.side) ||
    (h.start = c.start && h.stop = c.start && c.stop = c.start)

def join (c : Cluster) (h : Hunk) : Cluster := ⟨c.start, max c.stop h.stop, c.members ++ [h]⟩

def single (h : Hunk) : Cluster := ⟨h.start, h.stop, [h]⟩

end Cluster

def gather (c : Cluster) : List Hunk → List Cluster
  | [] => [c]
  | h :: rest => if c.joins h then gather (c.join h) rest else c :: gather (.single h) rest

def clusters : List Hunk → List Cluster
  | [] => []
  | h :: rest => gather (.single h) rest

/-- The order of hunks: by start, end and side. -/
def Hunk.le (a b : Hunk) : Prop :=
  a.start < b.start ∨ a.start = b.start ∧
    (a.stop < b.stop ∨ a.stop = b.stop ∧ (a.side = .current ∨ b.side = .incoming))

instance : DecidableRel le := fun _ _ => inferInstanceAs (Decidable (_ ∨ _))

/-- The state of the loop over clusters. Conflicts are character ranges of the output. -/
structure Progress where
  out : List Char
  conflictingSpans : ℕ
  conflictChars : List (ℕ × ℕ)
  copied : ℕ

def renderCluster (base : List Char) (p : Progress) (c : Cluster) : Option Progress := do
  let gap ← slice base p.copied c.start
  let out := p.out ++ gap
  match c.has .current, c.has .incoming with
  | true, true =>
    let cur ← c.variant base .current
    let inc ← c.variant base .incoming
    if cur = inc then some { p with out := out ++ cur, copied := c.stop }
    else if c.start < c.stop then
      some ⟨out ++ cur ++ inc, p.conflictingSpans + 1,
        p.conflictChars ++ [(out.length, (out ++ cur ++ inc).length)], c.stop⟩
    else some { p with out := out ++ cur ++ inc, copied := c.stop }
  | true, false => do
      let cur ← c.variant base .current
      some { p with out := out ++ cur, copied := c.stop }
  | false, _ => do
      let inc ← c.variant base .incoming
      some { p with out := out ++ inc, copied := c.stop }

def renderFrom (base : List Char) : List Cluster → Progress → Option Progress
  | [], p => do
      let tail ← slice base p.copied base.length
      some { p with out := p.out ++ tail, copied := base.length }
  | c :: rest, p => do
      let p ← renderCluster base p c
      renderFrom base rest p

structure MergeOutcome where
  text : String
  conflictingSpans : ℕ
  conflictRanges : List (ℕ × ℕ)

/-- The byte offset of every character, and the end. -/
def byteAt (out : List Char) : List ℕ := out.scanl (fun bytes c => bytes + c.utf8Size) 0

def byteRanges (out : List Char) (ranges : List (ℕ × ℕ)) : Option (List (ℕ × ℕ)) :=
  ranges.mapM fun range => do
    let start ← (byteAt out)[range.1]?
    let stop ← (byteAt out)[range.2]?
    some (start, stop)

def allHunks (diff : CharDiff) (base current incoming : List Char) : Option (List Hunk) := do
  let cur ← hunks (diff.ops base current) current .current
  let inc ← hunks (diff.ops base incoming) incoming .incoming
  some ((cur ++ inc).insertionSort le)

def mergeHunks (base : List Char) (all : List Hunk) : Option MergeOutcome := do
  let p ← renderFrom base (clusters all) ⟨[], 0, [], 0⟩
  let ranges ← byteRanges p.out p.conflictChars
  some ⟨String.ofList p.out, p.conflictingSpans, ranges⟩

def threeWayMerge (diff : CharDiff) (base current incoming : String) : Option MergeOutcome :=
  if base = current ∨ current = incoming then some ⟨incoming, 0, []⟩
  else if base = incoming then some ⟨current, 0, []⟩
  else do
    let all ← allHunks diff base.toList current.toList incoming.toList
    mergeHunks base.toList all

/-! ## What the clusters are -/

namespace Cluster

def text (base : List Char) (c : Cluster) (side : Side) : List Char :=
  applyWithin base c.stop c.start ((c.of side).map toEdit)

def rendering (base : List Char) (c : Cluster) : List Char :=
  if c.has .current ∧ c.has .incoming then
    if c.text base .current = c.text base .incoming then c.text base .current
    else c.text base .current ++ c.text base .incoming
  else if c.has .current then c.text base .current else c.text base .incoming

/-- Both sides changed a span of the base, and not in the same way. -/
def Conflicts (base : List Char) (c : Cluster) : Prop :=
  c.has .current ∧ c.has .incoming ∧ c.text base .current ≠ c.text base .incoming ∧ c.start < c.stop

instance (base : List Char) : DecidablePred (Conflicts base) := fun _ =>
  inferInstanceAs (Decidable (_ ∧ _))

/-- A span of the base with the hunks inside it. -/
structure Covers (bound : ℕ) (c : Cluster) : Prop where
  le : c.start ≤ c.stop
  bound_le : c.stop ≤ bound
  filled : c.members ≠ []
  inside : ∀ h ∈ c.members, c.start ≤ h.start ∧ h.start ≤ h.stop ∧ h.stop ≤ c.stop

end Cluster

/-- The gaps of the base joined with a text for each cluster. -/
def joined (base : List Char) (cs : List Cluster) (text : Cluster → List Char) : List Char :=
  spell base (cs.map fun c => ⟨c.start, c.stop, text c⟩)

/-- Where the conflicts are in the merged text, in a measure of texts. `done` is the text
before the base position `pos`. -/
def conflictsBy (size : List Char → ℕ) (base : List Char) :
    List Char → ℕ → List Cluster → List (ℕ × ℕ)
  | _, _, [] => []
  | done, pos, c :: cs =>
    let before := done ++ base.extract pos c.start
    let after := before ++ c.rendering base
    (if c.Conflicts base then [(size before, size after)] else []) ++
      conflictsBy size base after c.stop cs

def byteSize (text : List Char) : ℕ := (String.ofList text).utf8ByteSize

/-- The outcome of a merge, told by its clusters. -/
structure Merged (base current incoming : List Char) (cur inc : List Hunk) (cs : List Cluster)
    (outcome : MergeOutcome) : Prop where
  spans : ∀ c ∈ cs, c.Covers base.length
  disjoint : cs.Pairwise fun c d => c.stop ≤ d.start
  all : (cs.flatMap members).Perm (cur ++ inc)
  variants : ∀ c ∈ cs, ∀ side, c.variant base side = some (c.text base side)
  current_eq : joined base cs (fun c => c.text base .current) = current
  incoming_eq : joined base cs (fun c => c.text base .incoming) = incoming
  text_eq : outcome.text = String.ofList (joined base cs (rendering base))
  ranges_eq : outcome.conflictRanges = conflictsBy byteSize base [] 0 cs
  count_eq : outcome.conflictingSpans = outcome.conflictRanges.length

/-! ## Gathering -/

variable {bound : ℕ} {c : Cluster} {all : List Hunk}

section Gather

variable {d : Cluster} {h : Hunk} {rest : List Hunk}

theorem Cluster.joins_of_lt (hlt : h.start < c.stop) : c.joins h = true := by
  simp [joins, hlt]

theorem Cluster.start_le_of_joins (hc : c.start ≤ c.stop) (hj : c.joins h = true) :
    h.start ≤ c.stop := by
  rw [joins, Bool.or_eq_true, Bool.or_eq_true, Bool.and_eq_true, Bool.and_eq_true,
    Bool.and_eq_true] at hj
  rcases hj with (hin | hend) | hs
  · exact le_of_lt (of_decide_eq_true hin)
  · exact le_of_eq (of_decide_eq_true hend.1)
  · exact of_decide_eq_true hs.1.1 ▸ hc

theorem gather_members (c : Cluster) (rest : List Hunk) :
    (gather c rest).flatMap members = c.members ++ rest := by
  induction rest generalizing c with
  | nil => simp [gather]
  | cons h rest ih =>
    rw [gather]
    split
    · rw [ih, join, append_assoc]
      rfl
    · rw [flatMap_cons, ih]
      rfl

theorem clusters_members (all : List Hunk) : (clusters all).flatMap members = all := by
  cases all with
  | nil => rfl
  | cons h rest => exact gather_members (.single h) rest

theorem Cluster.Covers.join (hc : c.Covers bound) (hs : c.start ≤ h.start) (hle : h.start ≤ h.stop)
    (hb : h.stop ≤ bound) : (c.join h).Covers bound := by
  refine ⟨le_trans hc.le (le_max_left _ _),
    Nat.max_le.mpr ⟨hc.bound_le, hb⟩, by simp [Cluster.join], ?_⟩
  refine forall_mem_append.mpr ⟨fun m hm =>
    ?_, forall_mem_singleton.mpr ⟨hs, hle, le_max_right _ _⟩⟩
  have hin := hc.inside m hm
  exact ⟨hin.1, hin.2.1, le_trans hin.2.2 (le_max_left _ _)⟩

theorem Cluster.Covers.single (hle : h.start ≤ h.stop) (hb : h.stop ≤ bound) :
    (Cluster.single h).Covers bound := by
  refine ⟨hle, hb, by simp [Cluster.single], fun m hm => ?_⟩
  rw [mem_singleton.mp hm]
  exact ⟨le_refl _, hle, le_refl _⟩

/-- The clusters start where the first one does, lie in order, and cover their hunks. -/
theorem gather_spans (hc : c.Covers bound) (hr : ∀ h ∈ rest, h.start ≤ h.stop ∧ h.stop ≤ bound)
    (hf : ∀ h ∈ rest, c.start ≤ h.start) (hs : rest.Pairwise fun a b => a.start ≤ b.start) :
    (∀ d ∈ gather c rest, d.Covers bound ∧ c.start ≤ d.start) ∧
      (gather c rest).Pairwise fun d e => d.stop ≤ e.start := by
  induction rest generalizing c with
  | nil => simp [gather, hc]
  | cons h rest ih =>
    obtain ⟨hh, hr⟩ := forall_mem_cons.mp hr
    obtain ⟨hst, hf⟩ := forall_mem_cons.mp hf
    obtain ⟨hfi, hs⟩ := pairwise_cons.mp hs
    rw [gather]
    split
    · exact ih (hc.join hst hh.1 hh.2) hr hf hs
    next hj =>
      -- the hunk is not in the cluster, so it starts after it, and so does all that follows
      have hsto : c.stop ≤ h.start := not_lt.mp fun hlt => hj (joins_of_lt hlt)
      obtain ⟨hsp, hdi⟩ := ih (Cluster.Covers.single hh.1 hh.2) hr hfi hs
      refine ⟨forall_mem_cons.mpr ⟨⟨hc, le_refl _⟩, fun d hd => ?_⟩,
        pairwise_cons.mpr ⟨fun d hd => ?_, hdi⟩⟩
      · exact ⟨(hsp d hd).1, le_trans hst (hsp d hd).2⟩
      · exact le_trans hsto (hsp d hd).2

theorem clusters_spans (hall : ∀ h ∈ all, h.start ≤ h.stop ∧ h.stop ≤ bound)
    (hs : all.Pairwise fun a b => a.start ≤ b.start) :
    (∀ c ∈ clusters all, c.Covers bound) ∧ (clusters all).Pairwise fun c d => c.stop ≤ d.start := by
  cases all with
  | nil => simp [clusters]
  | cons h rest =>
    obtain ⟨hh, hr⟩ := forall_mem_cons.mp hall
    obtain ⟨hf, hs⟩ := pairwise_cons.mp hs
    obtain ⟨hsp, hd⟩ := gather_spans (Cluster.Covers.single hh.1 hh.2) hr hf hs
    exact ⟨fun c hc => (hsp c hc).1, hd⟩

end Gather

/-! ## The sides of the clusters -/

variable {base : List Char} {side : Side} {cs : List Cluster}

section Sides

variable {other : List Char} {found : List Hunk} {stop : ℕ}

theorem Turns.sorted (h : Turns base other side found) : found.Pairwise le :=
  h.apart.imp_of_mem fun ha _ hlt => Or.inl (lt_of_le_of_lt (h.inside _ ha).1 hlt)

theorem filter_insertionSort {α : Type} {r : α → α → Prop} [DecidableRel r]
    {p : α → Bool} {l : List α}
    (h : (l.filter p).Pairwise r) : (l.insertionSort r).filter p = l.filter p := by
  have hsub : ((l.filter p).filter p).Sublist ((l.insertionSort r).filter p) :=
    (sublist_insertionSort h filter_sublist).filter p
  rw [filter_filter] at hsub
  simp only [Bool.and_self] at hsub
  exact (hsub.eq_of_length ((perm_insertionSort r l).filter p).length_eq.symm).symm

def Cluster.group (side : Side) (c : Cluster) : SpanEdits.Group Char :=
  ⟨c.start, c.stop, (c.of side).map toEdit⟩

theorem group_edits (side : Side) (cs : List Cluster) :
    (cs.map (group side)).flatMap Group.edits =
      ((cs.flatMap members).filter fun h => h.side = side).map toEdit := by
  rw [flatMap_map, filter_flatMap, map_flatMap]
  rfl

theorem spans_fit (hs : ∀ c ∈ cs, c.Covers bound)
    (hd : cs.Pairwise fun c d => c.stop ≤ d.start) (text : Cluster → List Char) :
    Fits bound 0 (cs.map fun c => (⟨c.start, c.stop, text c⟩ : Edit Char)) := by
  refine ⟨zero_le _, forall_mem_map.mpr fun c hc => ?_, pairwise_map.mpr hd⟩
  exact ⟨zero_le _, (hs c hc).le, (hs c hc).bound_le⟩

theorem Cluster.Covers.fits (hc : c.Covers bound)
    (ho : (c.of side).Pairwise fun a b => a.stop < b.start) :
    Fits c.stop c.start ((c.of side).map toEdit) := by
  refine ⟨hc.le, forall_mem_map.mpr fun h hh => ?_, pairwise_map.mpr (ho.imp le_of_lt)⟩
  exact hc.inside h (mem_of_mem_filter hh)

theorem of_pairwise (ht : Turns base other side found)
    (hs : ((cs.flatMap members).filter fun h => h.side = side) = found) (hc : c ∈ cs) :
    (c.of side).Pairwise fun a b => a.stop < b.start := by
  have ha := ht.apart
  rw [← hs, filter_flatMap] at ha
  exact (pairwise_flatMap.mp ha).1 c hc

theorem joined_side (hs : ∀ c ∈ cs, c.Covers base.length)
    (hd : cs.Pairwise fun c d => c.stop ≤ d.start) (ht : Turns base other side found)
    (hsi : ((cs.flatMap members).filter fun h => h.side = side) = found) :
    joined base cs (fun c => c.text base side) = other := by
  have hgr : ∀ g ∈ cs.map (group side), Fits g.stop g.start g.edits :=
    forall_mem_map.mpr fun c hc => (hs c hc).fits (of_pairwise ht hsi hc)
  have he : (cs.map (group side)).map (Group.edit base) =
      cs.map fun c => ⟨c.start, c.stop, c.text base side⟩ := map_map
  have hf := spans_fit hs hd fun c => c.text base side
  rw [← he] at hf
  rw [joined, spell, ← he, ← applyWithin_groups hf hgr, group_edits, hsi]
  exact ht.spells

theorem slice_eq_some {text : List Char} {start : ℕ} (hle : start ≤ stop)
    (hs : stop ≤ text.length) :
    slice text start stop = some (text.extract start stop) := if_pos ⟨hle, hs⟩

theorem applyHunks_eq {pos : ℕ} (h : Fits stop pos (found.map toEdit)) (hs : stop ≤ base.length) :
    applyHunks base stop pos found = some (applyWithin base stop pos (found.map toEdit)) := by
  induction found generalizing pos with
  | nil => exact slice_eq_some h.le hs
  | cons e found ih =>
    have hh := h.head
    have hf := ih h.tail
    rw [applyHunks, slice_eq_some hh.1 (le_trans hh.2.1 (le_trans hh.2.2 hs)), hf]
    rfl

end Sides

/-! ## Rendering -/

structure Cluster.Renders (base : List Char) (c : Cluster) : Prop where
  covers : c.Covers base.length
  variant_eq : ∀ side, c.variant base side = some (c.text base side)

theorem renderCluster_eq (hc : c.Renders base) (p : Progress) (hco : p.copied ≤ c.start) :
    renderCluster base p c = some ⟨p.out ++ base.extract p.copied c.start ++ c.rendering base,
        p.conflictingSpans + (conflictsBy length base p.out p.copied [c]).length,
        p.conflictChars ++ conflictsBy length base p.out p.copied [c], c.stop⟩ := by
  have hs := slice_eq_some hco (le_trans hc.covers.le hc.covers.bound_le)
  simp only [renderCluster, hs, hc.variant_eq, conflictsBy, rendering, Cluster.Conflicts]
  rcases Bool.eq_false_or_eq_true (c.has .current) with hcur | hcur
  · rcases Bool.eq_false_or_eq_true (c.has .incoming) with hinc | hinc
    · by_cases ha : c.text base .current = c.text base .incoming
      · simp [hcur, hinc, ha]
      · by_cases hsp : c.start < c.stop <;> simp [hcur, hinc, ha, hsp]
    · simp [hcur, hinc]
  · simp [hcur]

/-- The clusters with what the merge puts in their place. -/
def rendered (base : List Char) (cs : List Cluster) : List (Edit Char) :=
  cs.map fun c => ⟨c.start, c.stop, c.rendering base⟩

theorem renderFrom_eq (hcs : ∀ c ∈ cs, c.Renders base) (p : Progress)
    (hf : Fits base.length p.copied (rendered base cs)) :
    renderFrom base cs p = some ⟨p.out ++ applyWithin base base.length p.copied (rendered base cs),
        p.conflictingSpans + (conflictsBy length base p.out p.copied cs).length,
        p.conflictChars ++ conflictsBy length base p.out p.copied cs, base.length⟩ := by
  induction cs generalizing p with
  | nil => simp [renderFrom, slice_eq_some hf.le, conflictsBy, rendered, applyWithin]
  | cons c cs ih =>
    obtain ⟨hc, hcs⟩ := forall_mem_cons.mp hcs
    have hs := renderCluster_eq hc p hf.head.1
    generalize hq : (⟨_, _, _, c.stop⟩ : Progress) = q at hs
    have hr : Fits base.length q.copied (rendered base cs) := by
      rw [← hq]
      exact hf.tail
    rw [renderFrom, hs]
    simp only [Option.bind_eq_bind, Option.bind_some]
    rw [ih hcs q hr, ← hq]
    simp [conflictsBy, rendered, map_cons, applyWithin, append_assoc, length_append, Nat.add_assoc]

theorem foldl_utf8Size (text : List Char) (bytes : ℕ) :
    text.foldl (fun bytes c => bytes + c.utf8Size) bytes = bytes + byteSize text := by
  induction text generalizing bytes with
  | nil => rfl
  | cons c text ih =>
    rw [foldl_cons, ih, byteSize, byteSize, String.ofList_cons, String.utf8ByteSize_append,
      String.utf8ByteSize_singleton, Nat.add_assoc]

theorem byteAt_append (before after : List Char) :
    (byteAt (before ++ after))[before.length]? = some (byteSize before) := by
  rw [byteAt, getElem?_scanl, take_left, if_pos (by simp), foldl_utf8Size, Nat.zero_add]

theorem byteRanges_eq {out : List Char} (done : List Char) (pos : ℕ) (cs : List Cluster)
    (hout : out = done ++ applyWithin base base.length pos (rendered base cs)) :
    byteRanges out (conflictsBy length base done pos cs) =
      some (conflictsBy byteSize base done pos cs) := by
  induction cs generalizing done pos with
  | nil => rfl
  | cons c cs ih =>
    have ha : out = done ++ base.extract pos c.start ++ c.rendering base ++
        applyWithin base base.length c.stop (rendered base cs) := by
      rw [hout]
      simp only [rendered, map_cons, applyWithin, append_assoc]
    simp only [conflictsBy]
    generalize done ++ base.extract pos c.start = before at ha ⊢
    have hr := ih (before ++ c.rendering base) c.stop ha
    have hs : (byteAt out)[before.length]? = some (byteSize before) := by
      rw [ha, append_assoc]
      exact byteAt_append _ _
    have hst : (byteAt out)[(before ++ c.rendering base).length]? = _ := ha ▸ byteAt_append _ _
    rw [byteRanges] at hr ⊢
    split
    · rw [singleton_append, mapM_cons, hr]
      simp only [hs, hst]
      rfl
    · exact hr

/-! ## The merge -/

section Merge

variable {current incoming other : List Char} {cur inc found : List Hunk} {a b : Hunk}
  {outcome : MergeOutcome}

instance : Std.Total le where
  total a b := by
    rcases a with ⟨a, sa⟩
    rcases b with ⟨b, sb⟩
    cases sa <;> cases sb <;> simp only [le, reduceCtorEq, or_true, and_true, or_false,
      and_false] <;> omega

instance : IsTrans Hunk le where
  trans a b c := by
    rcases a with ⟨a, sa⟩
    rcases b with ⟨b, sb⟩
    rcases c with ⟨c, sc⟩
    cases sa <;> cases sb <;> cases sc <;>
      simp only [le, reduceCtorEq, or_true, and_true, or_false, and_false] <;> omega

theorem Hunk.le.start_le (h : le a b) : a.start ≤ b.start := by
  rcases h with h | h
  · exact le_of_lt h
  · exact le_of_eq h.1

theorem Hunk.le.antisymm (h : le a b) (h' : le b a) : a.start = b.start ∧ a.side = b.side := by
  rcases a with ⟨a, sa⟩
  rcases b with ⟨b, sb⟩
  cases sa <;> cases sb <;>
    simp only [le, reduceCtorEq, or_true, and_true, or_false, and_false] at h h' ⊢ <;> omega

def outcomeOf (base : List Char) (cs : List Cluster) : MergeOutcome :=
  ⟨String.ofList (joined base cs (rendering base)), (conflictsBy byteSize base [] 0 cs).length,
    conflictsBy byteSize base [] 0 cs⟩

theorem conflictsBy_length (size size' : List Char → ℕ) (done : List Char) (pos : ℕ)
    (cs : List Cluster) :
    (conflictsBy size base done pos cs).length = (conflictsBy size' base done pos cs).length := by
  induction cs generalizing done pos with
  | nil => rfl
  | cons c cs ih =>
    simp only [conflictsBy, length_append, ih]
    split <;> rfl

theorem filter_append_side (hcur : ∀ h ∈ cur, h.side = .current)
    (hinc : ∀ h ∈ inc, h.side = .incoming) :
    ((cur ++ inc).filter fun h => h.side = .current) = cur ∧
      ((cur ++ inc).filter fun h => h.side = .incoming) = inc := by
  constructor
  · rw [filter_append, filter_eq_self.mpr (by simpa using hcur),
      filter_eq_nil_iff.mpr (by simpa using fun h hh => by simp [hinc h hh]), append_nil]
  · rw [filter_append, filter_eq_self (l := inc).mpr (by simpa using hinc),
      filter_eq_nil_iff.mpr (by simpa using fun h hh => by simp [hcur h hh]), nil_append]

theorem outcomeOf_merged (hcur : Turns base current .current cur)
    (hinc : Turns base incoming .incoming inc) :
    Merged base current incoming cur inc (clusters ((cur ++ inc).insertionSort le))
      (outcomeOf base (clusters ((cur ++ inc).insertionSort le))) := by
  have hm := clusters_members ((cur ++ inc).insertionSort le)
  have hin : ∀ h ∈ (cur ++ inc).insertionSort le, h.start ≤ h.stop ∧ h.stop ≤ base.length := by
    simp only [mem_insertionSort]
    exact forall_mem_append.mpr ⟨hcur.inside, hinc.inside⟩
  obtain ⟨hs, hd⟩ := clusters_spans hin ((pairwise_insertionSort le (cur ++ inc)).imp le.start_le)
  obtain ⟨hf, hf'⟩ := filter_append_side hcur.side_eq hinc.side_eq
  have hsi := filter_insertionSort (hf.symm ▸ hcur.sorted)
  have hsid := filter_insertionSort (hf'.symm ▸ hinc.sorted)
  rw [← hm, hf] at hsi
  rw [← hm, hf'] at hsid
  refine ⟨hs, hd, ?_, ?_, joined_side hs hd hcur hsi, joined_side hs hd hinc hsid, rfl, rfl, rfl⟩
  · rw [hm]
    exact perm_insertionSort _ _
  · intro c hc side
    have hco := hs c hc
    cases side with
    | current => exact applyHunks_eq (hco.fits (of_pairwise hcur hsi hc)) hco.bound_le
    | incoming => exact applyHunks_eq (hco.fits (of_pairwise hinc hsid hc)) hco.bound_le

theorem mergeHunks_eq (h : Merged base current incoming cur inc (clusters all) outcome) :
    mergeHunks base all = some (outcomeOf base (clusters all)) := by
  have hre : ∀ c ∈ clusters all, c.Renders base := fun c hc => ⟨h.spans c hc, h.variants c hc⟩
  have hf : Fits base.length 0 (rendered base (clusters all)) := spans_fit h.spans h.disjoint _
  have hr : byteRanges _ (conflictsBy length base [] 0 (clusters all)) = _ :=
    byteRanges_eq [] 0 (clusters all) rfl
  rw [mergeHunks, renderFrom_eq hre ⟨[], 0, [], 0⟩ hf]
  simp only [Option.bind_eq_bind, Option.bind_some, nil_append] at hr ⊢
  rw [hr, conflictsBy_length _ byteSize, Nat.zero_add]
  rfl

theorem outcomeOf_calm (side : Side)
    (hca : ∀ c ∈ cs, ¬ c.Conflicts base ∧ c.rendering base = c.text base side)
    (hj : joined base cs (fun c => c.text base side) = other) :
    outcomeOf base cs = ⟨String.ofList other, 0, []⟩ := by
  have hn : ∀ done pos, conflictsBy byteSize base done pos cs = [] := by
    clear hj
    induction cs with
    | nil => exact fun _ _ => rfl
    | cons c cs ih =>
      obtain ⟨hc, hcs⟩ := forall_mem_cons.mp hca
      intro done pos
      rw [conflictsBy, if_neg hc.1, ih hcs]
      rfl
  have ht : joined base cs (rendering base) = other := by
    rw [← hj, joined, joined]
    congr 1
    exact map_congr_left fun c hc => by rw [(hca c hc).2]
  rw [outcomeOf, hn, ht]
  rfl

theorem Turns.nil (base : List Char) (side : Side) : Turns base base side [] :=
  ⟨by simp, by simp, .nil, by simp [spell, applyWithin]⟩

theorem Cluster.calm_of_side (hf : c.members ≠ []) (hsi : ∀ h ∈ c.members, h.side = side) :
    ¬ c.Conflicts base ∧ c.rendering base = c.text base side := by
  obtain ⟨h, hh⟩ := exists_mem_of_ne_nil _ hf
  have hhas : ∀ s, c.has s = true ↔ s = side := by
    intro s
    rw [has, any_eq_true]
    constructor
    · rintro ⟨h, hh, hs⟩
      rw [← hsi h hh]
      exact (of_decide_eq_true hs).symm
    · intro hs
      exact ⟨h, hh, decide_eq_true ((hsi h hh).trans hs.symm)⟩
  cases side <;> simp [Cluster.Conflicts, rendering, hhas]

theorem calm_of_side (h : Merged base current incoming cur inc cs outcome)
    (hall : ∀ h ∈ cur ++ inc, h.side = side) :
    ∀ c ∈ cs, ¬ c.Conflicts base ∧ c.rendering base = c.text base side := by
  intro c hc
  refine Cluster.calm_of_side (h.spans c hc).filled fun m hm => hall m ?_
  exact h.all.mem_iff.mp (mem_flatMap.mpr ⟨c, hc, hm⟩)

def twins (e : Edit Char) : List Hunk := [⟨e, .current⟩, ⟨e, .incoming⟩]

def both (edits : List (Edit Char)) : List Hunk :=
  edits.map (fun e => ⟨e, .current⟩) ++ edits.map fun e => ⟨e, .incoming⟩

section Twins

variable {edits : List (Edit Char)}

theorem twins_perm (edits : List (Edit Char)) : (edits.flatMap twins).Perm (both edits) := by
  induction edits with
  | nil => exact .nil
  | cons e edits ih =>
    have hmid : (⟨e, .incoming⟩ :: both edits).Perm
        (edits.map (fun e => ⟨e, .current⟩) ++ ⟨e, .incoming⟩ :: edits.map fun e =>
          ⟨e, .incoming⟩) :=
      perm_middle.symm
    exact (List.Perm.append_left (twins e) ih).trans (hmid.cons _)

theorem sorted_both (hin : ∀ e ∈ edits, e.start ≤ e.stop)
    (hap : edits.Pairwise fun a b => a.stop < b.start) :
    (both edits).insertionSort Hunk.le = edits.flatMap twins := by
  have hst : (edits.map Edit.start).Nodup := by
    refine pairwise_map.mpr (hap.imp_of_mem fun ha _ hlt => ?_)
    exact Nat.ne_of_lt (lt_of_le_of_lt (hin _ ha) hlt)
  have hs : (edits.flatMap twins).Pairwise Hunk.le := by
    refine pairwise_flatMap.mpr ⟨fun e _ => by simp [twins, Hunk.le], ?_⟩
    refine hap.imp_of_mem fun ha _ hlt x hx y hy => Or.inl ?_
    have hlt := lt_of_le_of_lt (hin _ ha) hlt
    simp only [twins, mem_cons, not_mem_nil, or_false] at hx hy
    rcases hx with rfl | rfl <;> rcases hy with rfl | rfl <;> exact hlt
  have hed : ∀ h ∈ both edits, h.toEdit ∈ edits := by
    intro h hh
    rcases mem_append.mp hh with hh | hh <;> obtain ⟨e, he, rfl⟩ := mem_map.mp hh <;> exact he
  have hp := (perm_insertionSort Hunk.le (both edits)).trans (twins_perm edits).symm
  refine hp.eq_of_pairwise ?_ (pairwise_insertionSort _ _) hs
  intro a b ha hb hab hba
  obtain ⟨hsta, hsi⟩ := hab.antisymm hba
  have hsa := inj_on_of_nodup_map hst (hed a ((mem_insertionSort _).mp ha))
    (hed b ((twins_perm edits).mem_iff.mp hb)) hsta
  rcases a with ⟨a, sa⟩
  rcases b with ⟨b, sb⟩
  exact congr (congrArg Hunk.mk hsa) hsi

def paired (e : Edit Char) : Cluster := ⟨e.start, e.stop, twins e⟩

theorem gather_twins (e : Edit Char) (he : e.start ≤ e.stop) (rest : List Hunk) :
    gather (.single ⟨e, .current⟩) (⟨e, .incoming⟩ :: rest) = gather (paired e) rest := by
  have hj : (single ⟨e, .current⟩).joins ⟨e, .incoming⟩ = true := by
    rcases lt_or_eq_of_le he with hlt | heq
    · exact joins_of_lt hlt
    · simp [joins, single, heq]
  rw [gather, if_pos hj]
  simp [join, single, paired, twins]

theorem gather_paired (e : Edit Char) (hin : ∀ f ∈ e :: edits, f.start ≤ f.stop)
    (ha : (e :: edits).Pairwise fun a b => a.stop < b.start) :
    gather (paired e) (edits.flatMap twins) = (e :: edits).map paired := by
  induction edits generalizing e with
  | nil => rfl
  | cons f edits ih =>
    obtain ⟨he, hin⟩ := forall_mem_cons.mp hin
    obtain ⟨hf, ha⟩ := pairwise_cons.mp ha
    have hlt : e.stop < f.start := hf f mem_cons_self
    have hr : gather (.single ⟨f, .current⟩) (⟨f, .incoming⟩ :: edits.flatMap twins) =
        (f :: edits).map paired :=
      (gather_twins f (hin f mem_cons_self) _).trans (ih f hin ha)
    -- the next edit does not touch the cluster
    have hj : ¬ (paired e).joins ⟨f, .current⟩ = true :=
      fun hj => not_le_of_gt hlt (start_le_of_joins he hj)
    rw [map_cons, ← hr]
    exact if_neg hj

theorem clusters_twins (hin : ∀ e ∈ edits, e.start ≤ e.stop)
    (ha : edits.Pairwise fun a b => a.stop < b.start) :
    clusters (edits.flatMap twins) = edits.map paired := by
  cases edits with
  | nil => rfl
  | cons e edits =>
    exact (gather_twins e (hin e mem_cons_self) _).trans (gather_paired e hin ha)

theorem calm_paired (e : Edit Char) :
    ¬ (paired e).Conflicts base ∧ (paired e).rendering base = (paired e).text base .incoming := by
  have hs : (paired e).text base .current = (paired e).text base .incoming := by
    simp [text, of, paired, twins]
  constructor
  · exact fun hc => hc.2.2.1 hs
  · simp [rendering, hs]

end Twins

/-- The hunks of a side. A side that has the base's text has changed nothing. -/
def SideHunks (diff : CharDiff) (base other : List Char) (side : Side) (found : List Hunk) : Prop :=
  if base = other then found = [] else hunks (diff.ops base other) other side = some found

theorem SideHunks.exists_turns (diff : CharDiff) (base other : List Char) (side : Side) :
    ∃ found, SideHunks diff base other side found ∧ Turns base other side found := by
  by_cases hs : base = other
  · refine ⟨[], ?_, hs ▸ Turns.nil base side⟩
    rw [SideHunks, if_pos hs]
  · obtain ⟨found, hf, ht⟩ := diff.turns base other side
    refine ⟨found, ?_, ht⟩
    rwa [SideHunks, if_neg hs]

theorem hunkOf_side (text : List Char) (side : Side) (op : DiffOp) :
    hunkOf text side op = (hunkOf text .current op).map (Option.map fun h => ⟨h.toEdit, side⟩) := by
  cases op with
  | equal => rfl
  | delete => rfl
  | insert oldIndex newIndex newLen | replace oldIndex oldLen newIndex newLen =>
    rw [hunkOf, hunkOf, Option.map_map]
    rfl

theorem hunks_cons (op : DiffOp) (ops : List DiffOp) (text : List Char) (side : Side) :
    hunks (op :: ops) text side =
      (hunkOf text side op).bind fun found => (hunks ops text side).map (found.toList ++ ·) := by
  rw [hunks, hunks, mapM_cons]
  cases hunkOf text side op with
  | none => rfl
  | some found =>
    cases ops.mapM (hunkOf text side) with
    | none => rfl
    | some rest => cases found <;> rfl

theorem hunks_side (ops : List DiffOp) (text : List Char) (side : Side) :
    hunks ops text side = (hunks ops text .current).map (List.map fun h => ⟨h.toEdit, side⟩) := by
  induction ops with
  | nil => rfl
  | cons op ops ih =>
    rw [hunks_cons, hunks_cons, ih, hunkOf_side]
    cases hunkOf text .current op with
    | none => rfl
    | some found =>
      cases hunks ops text .current with
      | none => rfl
      | some rest => cases found <;> rfl

theorem SideHunks.same {diff : CharDiff} (ht : Turns base other .current cur)
    (hcur : SideHunks diff base other .current cur)
    (hinc : SideHunks diff base other .incoming inc) : cur ++ inc = both (cur.map toEdit) := by
  have hl : (cur.map toEdit).map (fun e => (⟨e, .current⟩ : Hunk)) = cur := by
    rw [map_map]
    refine (map_congr_left fun h hh => ?_).trans (map_id cur)
    rw [Function.comp_apply, ← ht.side_eq h hh]
    rfl
  have hin : inc = (cur.map toEdit).map fun e => ⟨e, .incoming⟩ := by
    by_cases hs : base = other
    · rw [SideHunks, if_pos hs] at hcur hinc
      rw [hcur, hinc]
      rfl
    · rw [SideHunks, if_neg hs] at hcur hinc
      rw [hunks_side, hcur, Option.map_some, Option.some_inj] at hinc
      rw [← hinc, map_map]
      rfl
  rw [both, hl, ← hin]

/-- Whatever the texts, the merge ends, and its outcome is told by its clusters. -/
theorem merge_keeps_both (diff : CharDiff) (base current incoming : String) :
    ∃ cur inc outcome, SideHunks diff base.toList current.toList .current cur ∧
      SideHunks diff base.toList incoming.toList .incoming inc ∧
      threeWayMerge diff base current incoming = some outcome ∧
      Merged base.toList current.toList incoming.toList cur inc
        (clusters ((cur ++ inc).insertionSort le)) outcome := by
  obtain ⟨cur, hcur, ht⟩ := SideHunks.exists_turns diff base.toList current.toList .current
  obtain ⟨inc, hinc, htu⟩ := SideHunks.exists_turns diff base.toList incoming.toList .incoming
  have hm := outcomeOf_merged ht htu
  refine ⟨cur, inc, outcomeOf base.toList (clusters ((cur ++ inc).insertionSort le)),
    hcur, hinc, ?_, hm⟩
  rw [threeWayMerge]
  by_cases hb : base = current
  · -- only the incoming side has hunks
    have hcur : cur = [] := by
      rwa [SideHunks, if_pos (congrArg String.toList hb)] at hcur
    rw [if_pos (Or.inl hb), outcomeOf_calm .incoming (calm_of_side hm ?_) hm.incoming_eq,
      String.ofList_toList]
    rw [hcur]
    exact htu.side_eq
  by_cases hs : current = incoming
  · -- every edit is made by both sides
    subst hs
    have hall := SideHunks.same ht hcur hinc
    have hins : ∀ e ∈ cur.map toEdit, e.start ≤ e.stop := forall_mem_map.mpr fun h hh =>
        (ht.inside h hh).1
    have hcl := clusters_twins hins (pairwise_map.mpr ht.apart)
    rw [hall, sorted_both hins (pairwise_map.mpr ht.apart), hcl] at hm ⊢
    rw [if_pos (Or.inr rfl), outcomeOf_calm .incoming (forall_mem_map.mpr fun e _ =>
      calm_paired e) hm.incoming_eq, String.ofList_toList]
  rw [if_neg (not_or.mpr ⟨hb, hs⟩)]
  by_cases hin : base = incoming
  · have hinc : inc = [] := by
      rwa [SideHunks, if_pos (congrArg String.toList hin)] at hinc
    rw [if_pos hin, outcomeOf_calm .current (calm_of_side hm ?_) hm.current_eq,
      String.ofList_toList]
    rw [hinc, append_nil]
    exact ht.side_eq
  · rw [SideHunks, if_neg (fun h => hb (String.toList_inj.mp h))] at hcur
    rw [SideHunks, if_neg (fun h => hin (String.toList_inj.mp h))] at hinc
    rw [if_neg hin, allHunks, hcur, hinc]
    exact mergeHunks_eq hm

example : (threeWayMerge default "ab" "xé" "ay").map MergeOutcome.text = some "xéay" ∧
    (threeWayMerge default "ab" "xé" "ay").map MergeOutcome.conflictRanges = some [(0, 5)] := by
  decide +kernel

end Merge

end Intentd.NoteMerge
