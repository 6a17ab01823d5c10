import Intentd.ByteTexts
import Mathlib.Data.List.Induction

/-!
# Paths with forward slashes

A path is a text. What counts of it are the names between its slashes: empty names and `.` say
nothing, and `..` leads up. A path that starts with a slash starts at the root of the tree, and any
other at a working directory. Resolving the names of a path gives the place it leads to in a tree
without links.
-/
namespace Intentd.UnixPaths
open List ByteTexts

abbrev Place := List (List Char)

def dot : List Char := ['.']

def dotDot : List Char := ['.', '.']

def isAbsolute (p : List Char) : Bool := p.head? == some '/'

def names (p : List Char) : Place := (p.splitOn '/').filter fun name => name ≠ [] ∧ name ≠ dot

def fileName (p : List Char) : Option (List Char) := (names p).getLast?.filter (· ≠ dotDot)

/-- A path from where another one leads; one that starts at the root replaces it. -/
def join (p q : List Char) : List Char :=
  if isAbsolute q then q
  else if p = [] ∨ p.getLast? = some '/' then p ++ q
  else p ++ '/' :: q

/-- The names from the root of the tree on. -/
def located (cwd : Place) (p : List Char) : Place :=
  if isAbsolute p then names p else cwd ++ names p

/-- The place that names lead to. Above the root there is only the root. -/
def resolve (path : Place) : Place :=
  path.foldl (fun place name => if name = dotDot then place.dropLast else place ++ [name]) []

/-- One name that stays below where it starts. -/
structure Plain (name : List Char) : Prop where
  ne_nil : name ≠ []
  ne_dot : name ≠ dot
  ne_dotDot : name ≠ dotDot
  slash : '/' ∉ name

section Names

variable {p q name : List Char} {cwd path : Place}

@[simp] theorem names_nil : names [] = [] := by decide

theorem names_slash (p q : List Char) : names (p ++ '/' :: q) = names p ++ names q := by
  rw [names, splitOn_append_cons_self, filter_append, names, names]

theorem names_join (h : isAbsolute q = false) : names (join p q) = names p ++ names q := by
  rw [join, if_neg (by simp [h])]
  split_ifs with hp
  · rcases hp with rfl | hl
    · simp
    · obtain ⟨p, rfl⟩ : ∃ before, p = before ++ ['/'] :=
        ⟨p.dropLast, (dropLast_append_getLast? _ hl).symm⟩
      rw [append_assoc, singleton_append, names_slash, names_slash, names_nil, append_nil]
  · exact names_slash p q

theorem mem_names (h : name ∈ names p) : name ≠ [] ∧ name ≠ dot ∧ '/' ∉ name := by
  obtain ⟨hmem, hn⟩ := mem_filter.mp h
  have := of_decide_eq_true hn
  exact ⟨this.1, this.2, not_mem_of_mem_splitOn hmem⟩

theorem Plain.of_fileName (h : fileName p = some name) : Plain name := by
  obtain ⟨hl, hup⟩ := Option.filter_eq_some_iff.mp h
  obtain ⟨hnil, hdot, hs⟩ := mem_names (mem_of_getLast? hl)
  exact ⟨hnil, hdot, by simpa using hup, hs⟩

theorem Plain.names (h : Plain name) : names name = [name] := by
  rw [UnixPaths.names, splitOn_eq_singleton h.slash]
  simp [h.ne_nil, h.ne_dot]

theorem Plain.isAbsolute (h : Plain name) : isAbsolute name = false := by
  cases name with
  | nil => rfl
  | cons c name =>
    have := h.slash
    grind [UnixPaths.isAbsolute]

theorem join_ne_nil (h : p ≠ [] ∨ q ≠ []) : join p q ≠ [] := by
  rw [join]
  split_ifs with hq hp
  · rintro rfl
    cases hq
  · simpa [imp_iff_not_or] using h
  · simp

theorem isAbsolute_join (h : p ≠ []) : isAbsolute (join p q) = (isAbsolute p || isAbsolute q) := by
  obtain ⟨c, p, rfl⟩ := exists_cons_of_ne_nil h
  rw [join]
  split_ifs with hq <;> simp_all [isAbsolute]

theorem located_join (cwd : Place) (p q : List Char) :
    located cwd (join p q) = if isAbsolute q then names q else located cwd p ++ names q := by
  by_cases hq : isAbsolute q = true
  · simp [join, located, hq]
  · rw [if_neg hq, located, names_join (Bool.eq_false_iff.mpr hq)]
    by_cases hp : p = []
    · have hj : join p q = q := by simp [join, hp, hq]
      rw [hj, if_neg hq, hp]
      simp [located, isAbsolute]
    · rw [isAbsolute_join hp, located]
      cases isAbsolute p <;> simp [hq]

theorem resolve_concat (h : name ≠ dotDot) (path : Place) :
    resolve (path ++ [name]) = resolve path ++ [name] := by
  simp [resolve, foldl_append, h]

theorem Plain.resolve_join (h : Plain name) (cwd : Place) (p : List Char) :
    resolve (located cwd (join p name)) = resolve (located cwd p) ++ [name] := by
  rw [located_join, h.isAbsolute, if_neg Bool.false_ne_true, h.names, resolve_concat h.ne_dotDot]

end Names

example : resolve (names "/a/./b//../c".toList) = ["a".toList, "c".toList] := by decide +kernel

theorem dotDot_notMem_resolve (path : Place) : dotDot ∉ resolve path := by
  induction path using reverseRecOn with
  | nil => exact not_mem_nil
  | append_singleton path name ih =>
    by_cases h : name = dotDot
    · rw [resolve, foldl_append, foldl_cons, foldl_nil, if_pos h]
      exact fun hmem => ih (dropLast_subset _ hmem)
    · rw [resolve_concat h, mem_append, mem_singleton, not_or]
      exact ⟨ih, Ne.symm h⟩

/-- What is resolved stays as it is. -/
theorem resolve_of_notMem {path : Place} (h : dotDot ∉ path) : resolve path = path := by
  induction path using reverseRecOn with
  | nil => rfl
  | append_singleton path name ih =>
    rw [mem_append, mem_singleton, not_or] at h
    rw [resolve_concat (Ne.symm h.2), ih h.1]

/-- A file is a plain entry with nothing below it. -/
inductive Entry
  | plain
  | link (target : List Char)

structure Tree where
  entry : Place → Option Entry
  closed : ∀ place name, entry (place ++ [name]) ≠ none → place = [] ∨ entry place = some .plain

/-- Follow a path from a place on, up to a link. Where a name is missing it is created as a plain
entry, or the path does not lead anywhere. -/
def walk (tree : Tree) (creates : Bool) (onLink : Place → Place → Option (ℕ × Place)) (links : ℕ)
    (place : Place) :
    Place → Option (ℕ × Place)
  | [] => some (links, place)
  | name :: path =>
    if name = dotDot then walk tree creates onLink links place.dropLast path
    else match tree.entry (place ++ [name]) with
      | some .plain => walk tree creates onLink links (place ++ [name]) path
      | some (.link target) =>
        onLink (if isAbsolute target then [] else place) (names target ++ path)
      | none => if creates then walk tree creates onLink links (place ++ [name]) path else none

/-- Follow a path through so many links at most, and say how many are left. -/
def follow (tree : Tree) (creates : Bool) : ℕ → Place → Place → Option (ℕ × Place)
  | 0 => walk tree creates (fun _ _ => none) 0
  | links + 1 => walk tree creates (follow tree creates links) (links + 1)

section Follow

variable {name : List Char} {tree : Tree} {creates : Bool} {links : ℕ} {place path more : Place}
  {found : ℕ × Place} {onLink : Place → Place → Option (ℕ × Place)}

@[simp] theorem follow_nil : follow tree creates links place [] = some (links, place) := by
  cases links <;> rfl

theorem follow_plain (h : name ≠ dotDot) (he : tree.entry (place ++ [name]) = some .plain) :
    follow tree creates links place (name :: path) =
      follow tree creates links (place ++ [name]) path := by
  cases links <;> rw [follow, walk, if_neg h, he]

theorem follow_missing (h : name ≠ dotDot) (he : tree.entry (place ++ [name]) = none) :
    follow tree creates links place (name :: path) =
      if creates then follow tree creates links (place ++ [name]) path else none := by
  cases links <;> rw [follow, walk, if_neg h, he]

theorem walk_append {next : ℕ × Place → Option (ℕ × Place)}
    (hl : ∀ place path, onLink place (path ++ more) = (onLink place path).bind next)
    (hn : ∀ place, walk tree creates onLink links place more = next (links, place)) :
    walk tree creates onLink links place (path ++ more) =
      (walk tree creates onLink links place path).bind next := by
  fun_induction walk tree creates onLink links place path <;> simp_all [walk]
  rw [← append_assoc, hl]

theorem follow_append (path more : Place) : follow tree creates links place (path ++ more) =
    (follow tree creates links place path).bind fun found =>
      follow tree creates found.1 found.2 more := by
  induction links generalizing place path with
  | zero => exact walk_append (fun _ _ => rfl) fun _ => rfl
  | succ links ih => exact walk_append (fun _ path => ih path) fun _ => rfl

theorem walk_creating {onLink' : Place → Place → Option (ℕ × Place)}
    (hl : ∀ place path, onLink place path = some found → onLink' place path = some found)
    (h : walk tree false onLink links place path = some found) :
    walk tree true onLink' links place path = some found := by
  fun_induction walk tree false onLink links place path <;> simp_all [walk]

theorem follow_creating (h : follow tree false links place path = some found) :
    follow tree true links place path = some found := by
  induction links generalizing place path with
  | zero => exact walk_creating (fun _ _ h => h) h
  | succ links ih => exact walk_creating (fun _ _ => ih) h

end Follow

end Intentd.UnixPaths
