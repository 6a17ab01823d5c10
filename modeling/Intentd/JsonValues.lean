import Mathlib.Data.List.Basic

/-!
# JSON values with ordered objects

An object keeps its fields in the order they were first inserted. Replacing the
value of a field that is there keeps its place; a new field goes to the end.
Removing a field keeps the others in order. In the source the last field takes its
place, and no statement depends on the order after a removal.
A number is kept as the text it is written with.
-/
namespace Intentd.JsonValues
open List

/-- String fields are looked up in short lists. -/
instance lawfulBEqOptionString : LawfulBEq (Option String) := inferInstance

inductive Json where
  | null
  | bool (b : Bool)
  | num (text : String)
  | str (s : String)
  | arr (items : List Json)
  | obj (fields : List (String × Json))
  deriving Repr

abbrev Fields := List (String × Json)

variable {value : Json} {fields : Fields}

namespace Fields

def get (key : String) : Fields → Option Json
  | [] => none
  | (k, v) :: rest => if k = key then some v else get key rest

def insert (key : String) (value : Json) : Fields → Fields
  | [] => [(key, value)]
  | (k, v) :: rest => if k = key then (key, value) :: rest else (k, v) :: insert key value rest

/-- Insert a field unless there is one of that name. -/
def orInsert (key : String) (value : Json) (fields : Fields) : Fields :=
  if (get key fields).isSome then fields else insert key value fields

def remove (key : String) (fields : Fields) : Fields := fields.filter fun field => field.1 ≠ key

/-- The fields with their values replaced, the keys as they are. -/
def mapValues (f : String → Json → Json) (fields : Fields) : Fields := fields.map fun field =>
    (field.1, f field.1 field.2)

variable {key other : String}

@[simp] theorem get_insert_self (fields : Fields) :
    get key (insert key value fields) = some value := by
  induction fields with
  | nil => simp [insert, get]
  | cons field rest ih =>
    rw [insert]
    split_ifs with h
    · simp [get]
    · simp [get, h, ih]

theorem get_insert_ne (h : other ≠ key) (fields : Fields) :
    get other (insert key value fields) = get other fields := by
  induction fields with
  | nil => simp [insert, get, h.symm]
  | cons field rest ih =>
    rw [insert]
    split_ifs with hk
    · simp [get, hk, h.symm]
    · simp [get, ih]

theorem get_insert (fields : Fields) :
    get other (insert key value fields) = if other = key then some value else get other fields := by
  split_ifs with h
  · rw [h, get_insert_self]
  · exact get_insert_ne h fields

theorem get_append (fields more : Fields) :
    get key (fields ++ more) = (get key fields).or (get key more) := by
  induction fields with
  | nil => rfl
  | cons field rest ih =>
    rw [cons_append, get, get]
    split_ifs
    · rfl
    · exact ih

theorem get_eq_none : get key fields = none ↔ key ∉ fields.map Prod.fst := by
  induction fields with
  | nil => simp [get]
  | cons field rest ih =>
    rw [get, map_cons, mem_cons, not_or, ← ih]
    split_ifs with h
    · simp [h]
    · simp [Ne.symm h]

theorem remove_of_get (h : get key fields = none) : remove key fields = fields := by
  induction fields with
  | nil => rfl
  | cons field rest ih =>
    rw [get] at h
    split_ifs at h with hk
    have hr := ih h
    rw [remove] at hr ⊢
    rw [filter_cons_of_pos (by simpa using hk), hr]

theorem insert_of_get_none (h : get key fields = none) :
    insert key value fields = fields ++ [(key, value)] := by
  induction fields with
  | nil => rfl
  | cons field rest ih =>
    rw [get] at h
    rw [insert]
    split_ifs at h ⊢ with hk
    rw [ih h, cons_append]

theorem insert_of_get (h : get key fields = some value) : insert key value fields = fields := by
  induction fields with
  | nil => cases h
  | cons field rest ih =>
    rw [get] at h
    rw [insert]
    split_ifs at h ⊢ with hk
    · cases h
      rw [← hk]
    · rw [ih h]

theorem get_orInsert (fields : Fields) : get other (orInsert key value fields) =
      if other = key then some ((get key fields).getD value) else get other fields := by
  unfold orInsert
  split_ifs with h hk hk
  · rw [hk]
    cases hget : get key fields with
    | none => rw [hget] at h; cases h
    | some v => rfl
  · rfl
  · rw [hk, get_insert_self, Option.not_isSome_iff_eq_none.mp h]
    rfl
  · exact get_insert_ne hk fields

section MapValues

variable {f g : String → Json → Json}

theorem mapValues_congr (h : ∀ field ∈ fields, f field.1 field.2 = g field.1 field.2) :
    mapValues f fields = mapValues g fields := by
  refine map_congr_left fun field hf => ?_
  rw [h field hf]

theorem mapValues_mapValues :
    mapValues g (mapValues f fields) = mapValues (fun key value => g key (f key value)) fields :=
  map_map

end MapValues

end Fields

variable {v : Json} {s : String}

namespace Json

/-- The field of an object; no other value has fields. -/
def get (v : Json) (key : String) : Option Json :=
  match v with
  | .obj fields => Fields.get key fields
  | _ => none

def isNull : Json → Bool
  | .null => true
  | _ => false

def asStr : Json → Option String
  | .str s => some s
  | _ => none

def asArr : Json → Option (List Json)
  | .arr items => some items
  | _ => none

def asObj : Json → Option Fields
  | .obj fields => some fields
  | _ => none

def strField (v : Json) (key : String) : Option String := (v.get key).bind asStr

mutual

/-- Equality of values, with the fields of objects in order. -/
def same : Json → Json → Bool
  | .null, .null => true
  | .bool a, .bool b => a == b
  | .num a, .num b => a == b
  | .str a, .str b => a == b
  | .arr a, .arr b => sameItems a b
  | .obj a, .obj b => sameFields a b
  | _, _ => false

def sameItems : List Json → List Json → Bool
  | [], [] => true
  | a :: as, b :: bs => same a b && sameItems as bs
  | _, _ => false

def sameFields : List (String × Json) → List (String × Json) → Bool
  | [], [] => true
  | (key, a) :: as, (key', b) :: bs => key == key' && same a b && sameFields as bs
  | _, _ => false

end

/-- Set a field of an object; any other value is left alone. -/
def insert (v : Json) (key : String) (value : Json) : Json :=
  match v with
  | .obj fields => .obj (Fields.insert key value fields)
  | v => v

def remove (v : Json) (key : String) : Json :=
  match v with
  | .obj fields => .obj (Fields.remove key fields)
  | v => v

/-- Equality of values when the order of an object's fields does not count. -/
inductive Equal : Json → Json → Prop
  | refl (v : Json) : Equal v v
  | arr {a b : List Json} : a.length = b.length →
      (∀ (i : ℕ) v w, a[i]? = some v → b[i]? = some w → Equal v w) → Equal (.arr a) (.arr b)
  | obj {a b : Fields} :
      (∀ key, (Fields.get key a).isSome = (Fields.get key b).isSome) →
      (∀ key v w, Fields.get key a = some v → Fields.get key b = some w → Equal v w) →
      Equal (.obj a) (.obj b)

theorem Equal.field {w : Json} (key : String) (fields : Fields) (h : Equal v w) :
    Equal (.obj (fields ++ [(key, v)])) (.obj (fields ++ [(key, w)])) := by
  refine .obj (fun other => ?_) fun other a b ha hb => ?_
  · rw [Fields.get_append, Fields.get_append]
    cases Fields.get other fields with
    | some value => rfl
    | none =>
      simp only [Option.none_or, Fields.get]
      split_ifs <;> rfl
  · rw [Fields.get_append] at ha hb
    cases hf : Fields.get other fields with
    | some value =>
      rw [hf] at ha hb
      cases ha
      cases hb
      exact .refl _
    | none =>
      simp only [hf, Option.none_or, Fields.get] at ha hb
      split_ifs at ha hb
      cases ha
      cases hb
      exact h

variable {key other : String}

theorem isNull_iff : v.isNull = true ↔ v = .null := by
  cases v <;> simp [isNull]

theorem asStr_eq_some : v.asStr = some s ↔ v = .str s := by
  cases v <;> simp [asStr]

theorem strField_eq_some : v.strField key = some s ↔ v.get key = some (.str s) := by
  simp [strField, Option.bind_eq_some_iff, asStr_eq_some]

theorem get_insert_ne (h : other ≠ key) : (v.insert key value).get other = v.get other := by
  cases v <;> try rfl
  exact Fields.get_insert_ne h _

theorem insert_of_get (h : v.get key = some value) : v.insert key value = v := by
  cases v <;> try rfl
  rw [insert, Fields.insert_of_get h]

theorem get_insert_of_get {old : Json} (h : v.get other = some old) :
    (v.insert key value).get key = some value := by
  cases v <;> try cases h
  exact Fields.get_insert_self _

section Trees

theorem tree_induction {motive : Json → Prop} (null : motive .null) (bool : ∀ b, motive (.bool b))
    (num : ∀ text, motive (.num text)) (str : ∀ s, motive (.str s))
    (arr : ∀ items, (∀ item ∈ items, motive item) → motive (.arr items))
    (obj : ∀ fields : Fields, (∀ field ∈ fields, motive field.2) → motive (.obj fields))
    (v : Json) : motive v := by
  refine @Json.rec motive (fun items => ∀ item ∈ items, motive item) (fun fields =>
    ∀ field ∈ fields, motive field.2)
    (fun field => motive field.2) null bool num str arr obj ?_ ?_ ?_ ?_ (fun _ _ h => h) v
  · exact fun _ h => absurd h not_mem_nil
  · exact fun _ _ h hs => forall_mem_cons.mpr ⟨h, hs⟩
  · exact fun _ h => absurd h not_mem_nil
  · exact fun _ _ h hs => forall_mem_cons.mpr ⟨h, hs⟩

/-- The first value is the second or somewhere in it. -/
inductive Within (v : Json) : Json → Prop
  | self : Within v v
  | item {items : List Json} {item : Json} (h : item ∈ items) (within : Within v item) :
      Within v (.arr items)
  | field {fields : Fields} {field : String × Json} (h : field ∈ fields)
      (within : Within v field.2) :
      Within v (.obj fields)

def EveryField (p : String → Json → Prop) (v : Json) : Prop :=
  ∀ fields : Fields, Within (.obj fields) v → ∀ field ∈ fields, p field.1 field.2

variable {p : String → Json → Prop}

theorem everyField_obj :
    EveryField p (.obj fields) ↔ ∀ field ∈ fields, p field.1 field.2 ∧ EveryField p field.2 := by
  constructor
  · intro h field hf
    exact ⟨h fields .self field hf, fun inner hin => h inner (.field hf hin)⟩
  · intro h inner hin
    cases hin with
    | self => exact fun field hf => (h field hf).1
    | field hf within => exact (h _ hf).2 inner within

theorem everyField_arr {items : List Json} :
    EveryField p (.arr items) ↔ ∀ item ∈ items, EveryField p item := by
  constructor
  · exact fun h item hit inner hin => h inner (.item hit hin)
  · intro h inner hin
    cases hin with
    | item hit within => exact h _ hit inner within

/-- Neither an array nor an object. -/
def isLeaf : Json → Bool
  | .arr _ | .obj _ => false
  | _ => true

theorem everyField_leaf (h : v.isLeaf = true) : EveryField p v := by
  intro fields hw
  cases hw with
  | self | item | field => cases h

end Trees

end Json

end Intentd.JsonValues
