import Intentd.ListPages

/-!
# Compact JSON

The text that a value is serialized to, without any spaces. The lengths that pages are cut by are
the lengths of these texts in bytes.
-/
namespace Intentd.JsonTexts
open ByteTexts JsonValues ListPages List

def escape (c : Char) : List Char :=
  if c = '"' then ['\\', '"'] else if c = '\\' then ['\\', '\\'] else if c = '\n' then ['\\', 'n']
  else if c = '\r' then ['\\', 'r'] else if c = '\t' then ['\\', 't']
  else if c = '\x08' then ['\\', 'b']
  else if c = '\x0c' then ['\\', 'f']
  else if c.toNat < 0x20 then ['\\', 'u', '0', '0', (c.toNat / 16).digitChar,
    (c.toNat % 16).digitChar]
  else [c]

def quoted (s : String) : List Char := '"' :: s.toList.flatMap escape ++ ['"']

mutual

/-- A value as compact JSON. -/
def jsonText : Json → List Char
  | .null => ['n', 'u', 'l', 'l']
  | .bool b => if b then ['t', 'r', 'u', 'e'] else ['f', 'a', 'l', 's', 'e']
  | .num text => text.toList
  | .str s => quoted s
  | .arr items => '[' :: itemsText items ++ [']']
  | .obj fields => '\x7b' :: fieldsText fields ++ ['\x7d']

def itemsText : List Json → List Char
  | [] => []
  | [item] => jsonText item
  | item :: items => jsonText item ++ ',' :: itemsText items

def fieldsText : List (String × Json) → List Char
  | [] => []
  | [(key, value)] => quoted key ++ ':' :: jsonText value
  | (key, value) :: fields => quoted key ++ ':' :: jsonText value ++ ',' :: fieldsText fields

end

/-- The kinds of escapes: a backslash with a letter or a code, or the character itself. -/
theorem escape_cases (c : Char) :
    (∃ letter, escape c = ['\\', letter] ∧ letter ∈ ['"', '\\', 'n', 'r', 't', 'b', 'f'] ∧
      jsonEscapedLen c = 2) ∨ (∃ high < 2, ∃ low < 16,
      escape c = ['\\', 'u', '0', '0', Nat.digitChar high, Nat.digitChar low] ∧
      jsonEscapedLen c = 6) ∨
    escape c = [c] ∧ c ≠ '"' ∧ c ≠ '\\' ∧ 0x20 ≤ c.toNat ∧ jsonEscapedLen c = c.utf8Size := by
  by_cases hs : c ∈ ['"', '\\', '\n', '\r', '\t', '\x08', '\x0c']
  · rw [jsonEscapedLen, if_pos hs]
    simp only [mem_cons, not_mem_nil, or_false] at hs
    rcases hs with rfl | rfl | rfl | rfl | rfl | rfl | rfl <;> exact .inl ⟨_, rfl, by decide, rfl⟩
  · rw [jsonEscapedLen, if_neg hs]
    simp only [mem_cons, not_mem_nil, or_false, not_or] at hs
    obtain ⟨hquote, hslash, hn, hr, ht, hb, hf⟩ := hs
    rw [escape, if_neg hquote, if_neg hslash, if_neg hn, if_neg hr, if_neg ht, if_neg hb, if_neg hf]
    split_ifs with hc
    · exact .inr (.inl ⟨c.toNat / 16, by omega, c.toNat % 16, by omega, rfl, rfl⟩)
    · exact .inr (.inr ⟨rfl, hquote, hslash, by omega, rfl⟩)

theorem byteLen_escape (c : Char) : byteLen (escape c) = jsonEscapedLen c := by
  have hletter : ∀ l ∈ ['"', '\\', 'n', 'r', 't', 'b', 'f'], byteLen ['\\', l] = 2 := by
    simp only [mem_cons, not_mem_nil, or_false]
    rintro l (rfl | rfl | rfl | rfl | rfl | rfl | rfl) <;> rfl
  have hcode : ∀ high < 2, ∀ low < 16,
      byteLen ['\\', 'u', '0', '0', Nat.digitChar high, Nat.digitChar low] = 6 := by decide
  rcases escape_cases c with ⟨l, he, hl, hlen⟩ | ⟨high, hh, low, hl, he, hlen⟩ | ⟨he, -, -, -, hlen⟩
  · rw [he, hlen, hletter l hl]
  · rw [he, hlen, hcode high hh low hl]
  · rw [he, hlen, byteLen_cons, byteLen_nil, Nat.add_zero]

theorem byteLen_quoted (s : String) : byteLen (quoted s) = escapedLen s.toList + 2 := by
  have hbody (text : List Char) : byteLen (text.flatMap escape) = escapedLen text := by
    induction text with
    | nil => rfl
    | cons c text ih => rw [flatMap_cons, byteLen_append, byteLen_escape, ih, escapedLen_cons]
  have hquote : byteLen ['"'] = 1 := rfl
  rw [quoted, cons_append, ← singleton_append, byteLen_append, byteLen_append, hbody, hquote]
  omega

theorem byteLen_itemsText (items : List Json)
    (h : ∀ item ∈ items, byteLen (jsonText item) = jsonLen item) :
    byteLen (itemsText items) = itemsLen items - 1 := by
  induction items with
  | nil => rfl
  | cons item items ih =>
    obtain ⟨hone, h⟩ := forall_mem_cons.mp h
    cases items with
    | nil => rw [itemsText, hone, itemsLen, itemsLen, Nat.add_zero, Nat.add_sub_cancel]
    | cons next items =>
      have hcomma : Char.utf8Size ',' = 1 := rfl
      have hpos : 0 < itemsLen (next :: items) := by
        rw [itemsLen]
        omega
      rw [itemsText, byteLen_append, byteLen_cons, ih h, hone, hcomma, itemsLen.eq_2 item]
      · omega
      · simp

theorem byteLen_fieldsText (fields : Fields)
    (h : ∀ field ∈ fields, byteLen (jsonText field.2) = jsonLen field.2) :
    byteLen (fieldsText fields) = fieldsLen fields - 1 := by
  have hcolon : Char.utf8Size ':' = 1 := rfl
  induction fields with
  | nil => rfl
  | cons field fields ih =>
    obtain ⟨hone, h⟩ := forall_mem_cons.mp h
    cases fields with
    | nil =>
      rw [fieldsText, byteLen_append, byteLen_quoted, byteLen_cons, hone, hcolon,
        fieldsLen, fieldsLen]
      omega
    | cons next fields =>
      have hcomma : Char.utf8Size ',' = 1 := rfl
      have hpos : 0 < fieldsLen (next :: fields) := by
        rw [fieldsLen]
        omega
      rw [fieldsText, byteLen_append, byteLen_append, byteLen_quoted, byteLen_cons,
        byteLen_cons, ih h, hone, hcolon, hcomma, fieldsLen.eq_2 field.1]
      · omega
      · simp

/-- The length of a value is that of its text. -/
theorem byteLen_jsonText (v : Json) : byteLen (jsonText v) = jsonLen v := by
  have hframe (first last : Char) (hf : first.utf8Size = 1) (hl : last.utf8Size = 1)
      (text : List Char) : byteLen (first :: text ++ [last]) = 2 + byteLen text := by
    rw [byteLen_append, byteLen_cons, byteLen_cons, hf, hl, byteLen_nil]
    omega
  induction v using Json.tree_induction with
  | null => rfl
  | bool b => cases b <;> rfl
  | num text => rfl
  | str s => exact byteLen_quoted s
  | arr items ih => rw [jsonText, hframe _ _ rfl rfl, byteLen_itemsText items ih, jsonLen]
  | obj fields ih => rw [jsonText, hframe _ _ rfl rfl, byteLen_fieldsText fields ih, jsonLen]

end Intentd.JsonTexts
