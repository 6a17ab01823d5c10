import Intentd.NoteLists

/-!
# Previews of JSON values

A value is cut to a budget that is shared by all its parts. Every part that is kept is charged for,
so that what is shown takes at most six bytes for each byte of the budget and a constant.
-/
namespace Intentd.JsonPreviews
open ByteTexts JsonValues ListPages NoteLists Json List

def slimBodySize : Json → ℕ
  | .str s => byteLen s.toList
  | other => jsonLen other

/-- An entry of an object: the size of its value, its key and what a budget makes of the value. -/
abbrev Entry := ℕ × String × (ℕ → Json × ℕ)

/-- The next entry of an object, unless its key alone is over what is left of the budget. Nothing is
admitted once the budget is spent. -/
def admitEntry (out : Fields × ℕ) (entry : Entry) : Fields × ℕ :=
  let charge := byteLen entry.2.1.toList + 4
  if out.2 < charge then out
  else
    let capped := entry.2.2 (out.2 - charge)
    (Fields.insert entry.2.1 capped.1 out.1, capped.2)

mutual

/-- A value cut to a budget, and what is left of the budget. -/
def capJsonValue : Json → ℕ → Json × ℕ
  | .str s, budget =>
    let kept := bytesPrefix budget s.toList
    (.str (String.ofList kept), budget - (byteLen kept + 2))
  | .arr items, budget =>
    let out := capItems items budget
    (.arr out.1, out.2)
  | .obj fields, budget =>
    -- the smallest values come first
    let out := ((capEntries fields).mergeSort fun a b => a.1 ≤ b.1).foldl admitEntry ([], budget)
    (.obj out.1, out.2)
  | .null, budget => (.null, budget - 8)
  | .bool b, budget => (.bool b, budget - 8)
  | .num text, budget => (.num text, budget - 8)

def capItems : List Json → ℕ → List Json × ℕ
  | [], budget => ([], budget)
  | item :: items, budget =>
    if budget = 0 then ([], budget)
    else
      let first := capJsonValue item (budget - 2)
      let out := capItems items first.2
      (first.1 :: out.1, out.2)

def capEntries : List (String × Json) → List Entry
  | [] => []
  | (key, value) :: fields =>
    (slimBodySize value, key, fun budget => capJsonValue value budget) :: capEntries fields

end

/-- The second value shows a part of the first. -/
inductive Preview : Json → Json → Prop
  | same {value : Json} (leaf : value.isLeaf = true) : Preview value value
  | str {s : String} {kept : List Char} (part : kept <+: s.toList) : Preview (.str s)
      (.str (String.ofList kept))
  | arr {items kept shown : List Json} (part : kept <+: items)
      (parts : Forall₂ Preview kept shown) :
      Preview (.arr items) (.arr shown)
  | obj {fields shown : Fields} (source : String × Json → Json) (own : ∀ entry ∈ shown,
      (entry.1, source entry) ∈ fields)
      (parts : ∀ entry ∈ shown, Preview (source entry) entry.2) : Preview (.obj fields) (.obj shown)

/-- What is shown takes six bytes for each one it was charged, and a constant more if it uses the
budget up. -/
structure Charged (budget left len : ℕ) : Prop where
  left_le : left ≤ budget
  size : len + 6 * left ≤ 6 * budget + 24
  size_of_left : left ≠ 0 → len + 6 * left ≤ 6 * budget + 2

theorem Charged.none (budget : ℕ) : Charged budget budget 2 := by
  constructor <;> omega

theorem Charged.scalar {len : ℕ} (h : len ≤ 24) (budget : ℕ) : Charged budget (budget - 8) len := by
  constructor <;> omega

theorem escapedLen_le (text : List Char) : escapedLen text ≤ 6 * byteLen text := by
  induction text with
  | nil => simp
  | cons c text ih =>
    have := jsonEscapedLen_le c
    have := c.utf8Size_pos
    rw [escapedLen_cons, byteLen_cons]
    omega

theorem fieldsLen_insert_le (key : String) (value : Json) (fields : Fields) :
    fieldsLen (Fields.insert key value fields) ≤ fieldsLen fields + escapedLen key.toList + 4 +
      jsonLen value := by
  induction fields with
  | nil => simp only [Fields.insert, fieldsLen]; omega
  | cons field fields ih =>
    rw [Fields.insert]
    split_ifs <;> simp only [fieldsLen] <;> omega

theorem mem_insert {key : String} {value : Json} {fields : Fields} {entry : String × Json}
    (h : entry ∈ Fields.insert key value fields) : entry = (key, value) ∨ entry ∈ fields := by
  induction fields with
  | nil => exact .inl (mem_singleton.mp h)
  | cons field fields ih =>
    rw [Fields.insert] at h
    split_ifs at h <;> grind

theorem mem_capEntries {fields : Fields} {entry : Entry} (h : entry ∈ capEntries fields) :
    ∃ value, (entry.2.1, value) ∈ fields ∧ entry.2.2 = capJsonValue value := by
  induction fields with
  | nil => cases h
  | cons field fields ih =>
    rw [capEntries, mem_cons] at h
    obtain rfl | h := h
    · exact ⟨field.2, mem_cons_self, rfl⟩
    · obtain ⟨value, hv, he⟩ := ih h
      exact ⟨value, mem_cons_of_mem _ hv, he⟩

/-- The value is cut to any budget. -/
def Caps (value : Json) : Prop :=
  ∀ budget, Charged budget (capJsonValue value budget).2 (jsonLen (capJsonValue value budget).1) ∧
    Preview value (capJsonValue value budget).1

theorem capItems_spec {items : List Json} (h : ∀ item ∈ items, Caps item) (budget : ℕ) :
    Charged budget (capItems items budget).2 (itemsLen (capItems items budget).1 + 2) ∧
      ∃ kept, kept <+: items ∧ Forall₂ Preview kept (capItems items budget).1 := by
  induction items generalizing budget with
  | nil => exact ⟨.none budget, [], prefix_rfl, .nil⟩
  | cons item items ih =>
    rw [forall_mem_cons] at h
    obtain ⟨hf, hp⟩ := h.1 (budget - 2)
    obtain ⟨hi, kept, hk, hs⟩ := ih h.2 (capJsonValue item (budget - 2)).2
    have h0 : capItems items 0 = ([], 0) := by cases items <;> rfl
    rw [capItems]
    split
    · subst budget
      exact ⟨.none 0, [], List.nil_prefix, .nil⟩
    · refine ⟨?_, item :: kept, (prefix_cons_inj item).mpr hk, .cons hp hs⟩
      obtain ⟨hl, hs, ho⟩ := hf
      obtain ⟨hl', hs', ho'⟩ := hi
      by_cases hz : (capJsonValue item (budget - 2)).2 = 0
      · simp only [hz, h0, itemsLen]
        constructor <;> omega
      · simp only [itemsLen]
        constructor <;> omega

theorem capEntries_spec {fields : Fields} (h : ∀ field ∈ fields, Caps field.2) (budget : ℕ)
    {entries : List Entry} (he : entries ⊆ capEntries fields) {out : Fields × ℕ}
    (hout : out = entries.foldl admitEntry ([], budget)) :
      Charged budget out.2 (fieldsLen out.1 + 2) ∧
      ∀ entry ∈ out.1, ∃ value, (entry.1, value) ∈ fields ∧ Preview value entry.2 := by
  subst hout
  induction entries using reverseRecOn with
  | nil => exact ⟨.none budget, by simp⟩
  | append_singleton entries entry ih =>
    obtain ⟨hi, hp⟩ := ih (append_subset.mp he).1
    obtain ⟨value, hv, hq⟩ := mem_capEntries (he (mem_append_right _ mem_cons_self))
    rw [foldl_append, foldl_cons, foldl_nil, admitEntry]
    generalize entries.foldl admitEntry ([], budget) = out at *
    split_ifs with hc
    · exact ⟨hi, hp⟩
    · have hcaps : Caps value := h _ hv
      obtain ⟨⟨hl, hs, ho⟩, hk⟩ := hcaps (out.2 - (byteLen entry.2.1.toList + 4))
      rw [← hq] at hl hs ho hk
      obtain ⟨hl', hs', ho'⟩ := hi
      have hin :=
        fieldsLen_insert_le entry.2.1 (entry.2.2 (out.2 - (byteLen entry.2.1.toList + 4))).1 out.1
      have hkey := escapedLen_le entry.2.1.toList
      refine ⟨by constructor <;> simp only <;> omega, fun shown hshown => ?_⟩
      obtain rfl | hshown := mem_insert hshown
      · exact ⟨value, hv, hk⟩
      · exact hp shown hshown

theorem capJsonValue_spec (value : Json)
    (h : ∀ text, Within (.num text) value → byteLen text.toList ≤ 24) : Caps value := by
  intro budget
  induction value using Json.tree_induction generalizing budget with
  | null => exact ⟨.scalar (by simp [capJsonValue, jsonLen]) budget, .same rfl⟩
  | bool b => exact ⟨.scalar (by cases b <;> simp [capJsonValue, jsonLen]) budget, .same rfl⟩
  | num text => exact ⟨.scalar (h text .self) budget, .same rfl⟩
  | str s =>
    obtain ⟨hp, hl⟩ := bytesPrefix_spec budget s.toList
    have := escapedLen_le (bytesPrefix budget s.toList)
    exact ⟨by constructor <;> simp only [capJsonValue, jsonLen, String.toList_ofList] <;> omega,
      .str hp⟩
  | arr items ih =>
    obtain ⟨⟨hl, hs, ho⟩, kept, hk, hp⟩ :=
      capItems_spec (fun item hi => ih item hi fun text ht => h text (.item hi ht)) budget
    exact ⟨by constructor <;> simp only [capJsonValue, jsonLen] <;> omega, .arr hk hp⟩
  | obj fields ih =>
    obtain ⟨⟨hl, hs, ho⟩, hp⟩ :=
      capEntries_spec (fun field hf => ih field hf fun text ht => h text (.field hf ht)) budget
      (mergeSort_perm (capEntries fields) fun a b => a.1 ≤ b.1).subset rfl
    have : Nonempty Json := ⟨.null⟩
    choose! source hm hk using hp
    exact ⟨by constructor <;> simp only [capJsonValue, jsonLen] <;> omega, .obj source hm hk⟩

theorem preview_bounded (value : Json)
    (h : ∀ text, Within (.num text) value → byteLen text.toList ≤ 24) (budget : ℕ) :
    jsonLen (capJsonValue value budget).1 ≤ 6 * budget + 32 ∧
      Preview value (capJsonValue value budget).1 := by
  obtain ⟨hc, hp⟩ := capJsonValue_spec value h budget
  exact ⟨by have := hc.size; omega, hp⟩

def lengthy : Json :=
  .obj [("n", .num "17"), ("a", .arr [.str "some long text", .num "2"]),
    ("z", .str "a text that is longer than the others")]

/-- A text is cut, and an item and a field are left out. -/
theorem short_preview :
    (capJsonValue lengthy 29).1 = .obj [("n", .num "17"), ("a", .arr [.str "some long"])] ∧
      jsonLen (capJsonValue lengthy 29).1 ≤ 206 ∧ Preview lengthy (capJsonValue lengthy 29).1 := by
  refine ⟨?_, preview_bounded lengthy (fun text h => ?_) 29⟩
  · rw [lengthy, capJsonValue, mergeSort_of_pairwise (by decide)]
    rfl
  · cases h with
    | field hm hw =>
      simp only [mem_cons, not_mem_nil, or_false] at hm
      rcases hm with rfl | rfl | rfl
      · cases hw
        decide
      · cases hw with
        | item hm hw =>
          simp only [mem_cons, not_mem_nil, or_false] at hm
          rcases hm with rfl | rfl <;> cases hw
          decide
      · cases hw

end Intentd.JsonPreviews
