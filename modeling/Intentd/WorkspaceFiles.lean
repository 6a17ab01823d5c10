import Intentd.UnixPaths
import Mathlib.Data.List.DropRight

/-!
# Files of a workspace

A requested path is joined to the root of its workspace and resolved by its names alone. It is
accepted if it is the root or below it by its text, and if the nearest place at or above it that
exists is below the root once links are followed. A name that exists but leads nowhere, as a broken
link does, is refused.

A root of separators only counts as the root of the tree, which contains everything.
-/
namespace Intentd.WorkspaceFiles
open UnixPaths List

structure Disk where
  canonicalize : Place → Option Place
  isPresent : Place → Bool

def nodeResolve (cwd : Place) (base rel : List Char) : Place :=
  resolve (located cwd (join base rel))

def isSeparator (c : Char) : Bool := c == '/' || c == '\\'

def render (place : Place) : List Char := if place = [] then ['/'] else place.flatMap ('/' :: ·)

def isWithin (root : List Char) (full : Place) : Bool :=
  if root = [] then false
  else if root.rdropWhile isSeparator = [] then true
  else (root.rdropWhile isSeparator).isPrefixOf (render full) &&
    ((render full).drop (root.rdropWhile isSeparator).length).head?.all isSeparator

/-- The nearest place at or above a path, given with its last name first, that exists. -/
def deepestExisting (disk : Disk) (stop : Place → Bool) : Place → Option Place
  | [] => disk.canonicalize []
  | name :: up => match disk.canonicalize (name :: up).reverse with
    | some place => some place
    | none => if stop (name :: up).reverse then none else deepestExisting disk stop up

def accessDenied : String := "Access denied: path outside workspace"

def orFail {α : Type} (message : String) : Option α → Except String α
  | some a => .ok a
  | none => .error message

def require (c : Bool) (message : String) : Except String Unit :=
  if c then .ok () else .error message

def enforceSymlinkContainment (disk : Disk) (cwd : Place) (root : List Char) (full : Place) :
    Except String Unit :=
  if root.rdropWhile isSeparator = [] then .ok () else do
    let canonRoot ← orFail accessDenied (disk.canonicalize (located cwd root))
    let canon ← orFail accessDenied (deepestExisting disk disk.isPresent full.reverse)
    require (canonRoot.isPrefixOf canon) accessDenied

def resolveWithin (disk : Disk) (cwd : Place) (root rel : List Char) : Except String Place := do
  let full := nodeResolve cwd root rel
  require (isWithin root full) accessDenied
  enforceSymlinkContainment disk cwd root full
  return full

theorem trimmed_ne_nil {root : List Char} (h : ∃ c ∈ root, isSeparator c = false) :
    root.rdropWhile isSeparator ≠ [] := by
  obtain ⟨c, hc, hs⟩ := h
  rw [Ne, rdropWhile_eq_nil_iff]
  exact fun hall => by simp [hall c hc] at hs

theorem isAbsolute_render (place : Place) : isAbsolute (render place) = true := by
  rw [render]
  split_ifs with h
  · rfl
  · obtain ⟨name, rest, rfl⟩ := exists_cons_of_ne_nil h
    rfl

section Results

variable {α β : Type} {message : String} {a : α} {b : β}

theorem bind_ok {x : Except String α} {g : α → Except String β} (h : (x >>= g) = .ok b) :
    ∃ a, x = .ok a ∧ g a = .ok b := by
  cases x with
  | error e => cases h
  | ok a => exact ⟨a, rfl, h⟩

theorem orFail_ok {x : Option α} (h : orFail message x = .ok a) : x = some a := by
  cases x with
  | none => cases h
  | some b => cases h; rfl

theorem require_ok {c : Bool} {u : Unit} (h : require c message = .ok u) : c = true := by
  cases c with
  | false => cases h
  | true => rfl

end Results

/-- A tree as the calls of the system see it. What is present may be a link that leads nowhere. -/
def disk (tree : Tree) (maxLinks : ℕ) : Disk where
  canonicalize path := (follow tree false maxLinks [] path).map (·.2)
  isPresent path := match path.reverse with
    | [] => true
    | name :: up => (follow tree false maxLinks [] up.reverse).any fun found =>
      name = dotDot || (tree.entry (found.2 ++ [name])).isSome

/-- Following a path leads at or below where the root leads, if what is missing is created on the
way. -/
def Inside (tree : Tree) (maxLinks : ℕ) (cwd : Place) (root : List Char) (full : Place) : Prop :=
  ∃ canonRoot, (disk tree maxLinks).canonicalize (located cwd root) = some canonRoot ∧
    ∃ links place, follow tree true maxLinks [] full = some (links, place) ∧ canonRoot <+: place

section Containment

variable {tree : Tree} {maxLinks links : ℕ} {path place root : Place}

theorem canonicalize_eq_some : (disk tree maxLinks).canonicalize path = some place ↔
    ∃ links, follow tree false maxLinks [] path = some (links, place) := by
  simp [disk]

/-- From the nearest place that exists on, following a path only creates what is missing. -/
theorem follow_deepest (up : Place) (hup : dotDot ∉ up)
    (h : deepestExisting (disk tree maxLinks) (disk tree maxLinks).isPresent up = some root) :
    ∃ links place, follow tree true maxLinks [] up.reverse = some (links, place) ∧ root <+: place ∧
      (follow tree false maxLinks [] up.reverse = some (links, place) ∨ place ≠ [] ∧
        tree.entry place = none) := by
  induction up with
  | nil =>
    obtain ⟨links, hro⟩ := canonicalize_eq_some.mp h
    exact ⟨links, root, follow_creating hro, prefix_rfl, .inl hro⟩
  | cons name up ih =>
    obtain ⟨hna, hre⟩ := not_or.mp (mem_cons.not.mp hup)
    rw [deepestExisting] at h
    cases hfo : (disk tree maxLinks).canonicalize (name :: up).reverse with
    | some place =>
      rw [hfo] at h
      cases h
      obtain ⟨links, hro⟩ := canonicalize_eq_some.mp hfo
      exact ⟨links, root, follow_creating hro, prefix_rfl, .inl hro⟩
    | none =>
      rw [hfo] at h
      split_ifs at h with hpr
      obtain ⟨links, place, hfol, hbe, hpl⟩ := ih hre h
      have hmi : tree.entry (place ++ [name]) = none := by
        rcases hpl with hpl | ⟨hne, hno⟩
        · simpa [disk, hpl, Ne.symm hna] using hpr
        · by_contra hen
          rcases tree.closed place name hen with hnil | hpla
          · exact hne hnil
          · cases hno.symm.trans hpla
      rw [reverse_cons]
      refine ⟨links, place ++ [name], ?_, hbe.trans ( prefix_append _ _), .inr ⟨by simp, hmi⟩⟩
      rw [follow_append, hfol, Option.bind_some, follow_missing (Ne.symm hna) hmi, if_pos rfl,
        follow_nil]

theorem deepestExisting_of_found {d : Disk} {stop : Place → Bool}
    (h : d.canonicalize path = some place) : deepestExisting d stop path.reverse = some place := by
  cases hp : path.reverse with
  | nil => rwa [reverse_eq_nil_iff.mp hp] at h
  | cons name up => rw [deepestExisting, ← hp, reverse_reverse, h]

section NoLinks

variable (hlinks : ∀ path ≠ [], ∀ target, tree.entry (root ++ path) ≠ some (.link target))
include hlinks

theorem follow_below (hp : dotDot ∉ path) {n : ℕ}
    (h : follow tree false n root path = some (links, place)) : place = root ++ path := by
  induction path using reverseRecOn generalizing links place with
  | nil => simp_all
  | append_singleton path name ih =>
    rw [mem_append, not_or, mem_singleton] at hp
    rw [follow_append] at h
    obtain ⟨found, hf, h⟩ := Option.bind_eq_some_iff.mp h
    have hpl := ih hp.1 hf
    have hl := hlinks (path ++ [name]) (by simp)
    rw [← append_assoc, ← hpl] at hl ⊢
    cases he : tree.entry (found.2 ++ [name]) with
    | none =>
      rw [follow_missing (Ne.symm hp.2) he] at h
      cases h
    | some entry => cases entry with
      | plain =>
        rw [follow_plain (Ne.symm hp.2) he, follow_nil] at h
        cases h
        rfl
      | link target => exact absurd he (hl target)

/-- Below a root without links, the nearest place that exists is below the root too. -/
theorem deepest_below {start : Place}
    (hs : follow tree false maxLinks [] start = some (links, root)) (hp : dotDot ∉ path) :
    ∃ more, deepestExisting (disk tree maxLinks) (disk tree maxLinks).isPresent
      (start ++ path).reverse = some (root ++ more) := by
  have hpl {path : Place} (hp : dotDot ∉ path) {found : ℕ × Place}
      (h : follow tree false maxLinks [] (start ++ path) = some found) : found.2 =
        root ++ path := by
    rw [follow_append, hs, Option.bind_some] at h
    exact follow_below hlinks hp h
  induction path using reverseRecOn with
  | nil =>
    refine ⟨[], ?_⟩
    rw [append_nil, append_nil]
    exact deepestExisting_of_found (canonicalize_eq_some.mpr ⟨_, hs⟩)
  | append_singleton path name ih =>
    have hn := hp
    rw [mem_append, not_or, mem_singleton] at hn
    cases hf : follow tree false maxLinks [] (start ++ (path ++ [name])) with
    | some found =>
      refine ⟨path ++ [name], deepestExisting_of_found (canonicalize_eq_some.mpr ⟨found.1, ?_⟩)⟩
      rw [hf, ← hpl hp hf]
    | none =>
      -- were the name there, it could be followed, since it is no link
      have ha : (disk tree maxLinks).isPresent (start ++ path ++ [name]) = false := by
        cases hup : follow tree false maxLinks [] (start ++ path) with
        | none => simp [disk, hup]
        | some found =>
          have he : tree.entry (found.2 ++ [name]) = none := by
            have hl := hlinks (path ++ [name]) (by simp)
            rw [← append_assoc, ← hpl hn.1 hup] at hl
            rw [← append_assoc, follow_append, hup] at hf
            cases he : tree.entry (found.2 ++ [name]) with
            | none => rfl
            | some entry => cases entry with
              | plain =>
                rw [Option.bind_some, follow_plain (Ne.symm hn.2) he, follow_nil] at hf
                cases hf
              | link target => exact absurd he (hl target)
          simp [disk, hup, he, Ne.symm hn.2]
      obtain ⟨more, hm⟩ := ih hn.1
      refine ⟨more, ?_⟩
      rw [← append_assoc] at hf ⊢
      have hno : (disk tree maxLinks).canonicalize (start ++ path ++ [name]) = none := by
        simp only [disk, hf, Option.map_none]
      rw [reverse_concat, deepestExisting, reverse_cons, reverse_reverse, hno, ha]
      exact hm

end NoLinks

/-- By its text, a place below a root in its shortest form is within it. -/
theorem isWithin_of_below {root : List Char} {full : Place} (hr : root = render (names root))
    (h : names root <+: full) : isWithin root full = true := by
  obtain ⟨path, rfl⟩ := h
  have hne : root ≠ [] := by
    rintro rfl
    have ha := isAbsolute_render (names [])
    rw [← hr] at ha
    cases ha
  rw [isWithin, if_neg hne]
  split_ifs with ht
  · rfl
  have hn : names root ≠ [] := by
    intro hnil
    rw [render, if_pos hnil] at hr
    exact ht (by rw [hr]; decide)
  have hre : render (names root ++ path) = root ++ path.flatMap ('/' :: ·) := by
    rw [render, if_neg (by simp [hn]), flatMap_append]
    rw [render, if_neg hn] at hr
    rw [← hr]
  have hr := rdropWhile_append_rtakeWhile (p := isSeparator) (l := root)
  have hs (c : Char) (hc : c ∈ root.rtakeWhile isSeparator) : isSeparator c = true :=
    mem_rtakeWhile_imp hc
  rw [hre]
  generalize root.rdropWhile isSeparator = trimmed,
    root.rtakeWhile isSeparator = separators at hr hs
  rw [← hr, append_assoc, drop_left, isPrefixOf_iff_prefix.mpr (prefix_append _ _), Bool.true_and]
  cases separators with
  | cons c separators => exact hs c mem_cons_self
  | nil => cases path <;> rfl

end Containment

/-- An accepted path leads at or below the root, wherever links lead, and below a root without links
every path is accepted. -/
theorem paths_stay_inside (tree : Tree) (maxLinks : ℕ) (cwd : Place) (root rel : List Char)
    (hroot : ∃ c ∈ root, isSeparator c = false) :
    (∀ full, resolveWithin (disk tree maxLinks) cwd root rel = .ok full →
      Inside tree maxLinks cwd root full) ∧ ∀ canonRoot, root = render (names root) →
      (disk tree maxLinks).canonicalize (names root) = some canonRoot →
      (∀ path ≠ [], ∀ target, tree.entry (canonRoot ++ path) ≠ some (.link target)) →
      names root <+: nodeResolve cwd root rel →
      resolveWithin (disk tree maxLinks) cwd root rel = .ok (nodeResolve cwd root rel) := by
  have htr := trimmed_ne_nil hroot
  refine ⟨fun full h => ?_, fun canonRoot hno hex hlinks hbe => ?_⟩
  · obtain ⟨_, -, h⟩ := bind_ok h
    obtain ⟨_, hco, h⟩ := bind_ok h
    cases h
    rw [enforceSymlinkContainment, if_neg htr] at hco
    obtain ⟨canonRoot, hca, hco⟩ := bind_ok hco
    obtain ⟨canon, hcan, hco⟩ := bind_ok hco
    obtain ⟨links, place, hfo, hpl, -⟩ := follow_deepest _
      (mem_reverse.not.mpr (dotDot_notMem_resolve _)) (orFail_ok hcan)
    rw [reverse_reverse] at hfo
    exact ⟨canonRoot, orFail_ok hca, links, place, hfo,
      ( isPrefixOf_iff_prefix.mp (require_ok hco)).trans hpl⟩
  · obtain ⟨path, hpa⟩ := hbe
    obtain ⟨links, hst⟩ := canonicalize_eq_some.mp hex
    have hnot : dotDot ∉ path := by
      have hall := dotDot_notMem_resolve (located cwd (join root rel))
      rw [← nodeResolve, ← hpa, mem_append, not_or] at hall
      exact hall.2
    obtain ⟨more, hmo⟩ := deepest_below hlinks hst hnot
    have hab : isAbsolute root = true := by
      rw [hno]
      exact isAbsolute_render _
    have hlo : located cwd root = names root := by rw [located, if_pos hab]
    have hwi := isWithin_of_below hno ⟨path, hpa⟩
    rw [hpa] at hmo
    have hga : enforceSymlinkContainment (disk tree maxLinks) cwd root (nodeResolve cwd root rel) =
        .ok () := by
      rw [enforceSymlinkContainment, if_neg htr, hlo, hex, hmo]
      exact if_pos ( isPrefixOf_iff_prefix.mpr ( prefix_append _ _))
    rw [resolveWithin, hwi, hga]
    rfl

/-- A directory with at most one entry in it. -/
def shelf (name : String) (inside : Option Entry) : Tree where
  entry place := if place = [name.toList] then some .plain
    else if place = [name.toList, ['a']] then inside else none
  closed place last h := by
    rcases place with _ | ⟨first, _ | ⟨second, rest⟩⟩
    · exact .inl rfl
    · right
      simp_all
    · simp at h

theorem paths_stay_inside_link :
    Inside (shelf "ws" (some (.link "/ws".toList))) 40 [] "/ws".toList ["ws".toList,
      ['a'], ['b']] :=
  (paths_stay_inside _ 40 [] "/ws".toList "a/b".toList ⟨'w', by decide, by decide⟩).1 _
    (by decide +kernel)

theorem backslash_root_escapes :
    ∃ full, resolveWithin (disk (shelf "\\" none) 40) [] "/\\".toList "/etc".toList = .ok full ∧
    ¬Inside (shelf "\\" none) 40 [] "/\\".toList full := by
  refine ⟨["etc".toList], by decide +kernel, ?_⟩
  rintro ⟨canonRoot, hr, links, place, hpl, hp⟩
  have hc : some ["\\".toList] = some canonRoot := .trans (by decide +kernel) hr
  have hetc : some (40, ["etc".toList]) = some (links, place) := .trans (by decide +kernel) hpl
  cases hc
  cases hetc
  revert hp
  decide

end Intentd.WorkspaceFiles
