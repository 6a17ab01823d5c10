import Intentd.ByteTexts
import Intentd.JsonValues

/-!
# Bounded pages of a list

A page of a list read takes rows from the front of what is left until it has as many as asked
for or its JSON would pass a budget. The first row is always served: one that is too large by
itself is made smaller. When rows remain, the place of the last row served goes into an opaque
token, which names the list it was made for.

How a token is written is left open. Only that reading it back gives what was written is used.
-/
namespace Intentd.ListPages
open ByteTexts JsonValues List

mutual

def jsonLen : Json → ℕ
  | .null => 4
  | .bool b => if b then 4 else 5
  | .num text => byteLen text.toList
  | .str s => escapedLen s.toList + 2
  | .arr items => 2 + (itemsLen items - 1)
  | .obj fields => 2 + (fieldsLen fields - 1)

/-- The items with a comma after each. -/
def itemsLen : List Json → ℕ
  | [] => 0
  | item :: items => jsonLen item + 1 + itemsLen items

def fieldsLen : List (String × Json) → ℕ
  | [] => 0
  | (key, value) :: fields => escapedLen key.toList + 3 + jsonLen value + 1 + fieldsLen fields

end

theorem itemsLen_append (items more : List Json) :
    itemsLen (items ++ more) = itemsLen items + itemsLen more := by
  induction items with
  | nil => simp [itemsLen]
  | cons item items ih => simp [itemsLen, ih, Nat.add_assoc]

theorem fieldsLen_append (fields more : Fields) :
    fieldsLen (fields ++ more) = fieldsLen fields + fieldsLen more := by
  induction fields with
  | nil => simp [fieldsLen]
  | cons field fields ih => simp [fieldsLen, ih, Nat.add_assoc]

def escapedStrLen (s : String) : ℕ := jsonLen (.str s) - 2

/-- What is asked for. The limit was clamped to at least one row. -/
structure PageRequest where
  limit : ℕ
  limit_pos : 0 < limit
  nextToken : Option String

def PageRequest.new (limit : Option ℕ) (default maximum : ℕ) (hmaximum : 0 < maximum)
    (nextToken : Option String) : PageRequest where
  limit := min (max 1 (limit.getD default)) maximum
  limit_pos := by omega
  nextToken := nextToken

section Tokens

/-- A way to write values as texts that are read back. -/
structure Codec (γ : Type) where
  encode : γ → String
  decode : String → Option γ
  decode_encode : ∀ c, decode (encode c) = some c

structure CursorWire where
  v : ℕ
  scope : String
  key : String
  id : String

def pageToken (codec : Codec CursorWire) (scope key id : String) : String :=
  codec.encode ⟨1, scope, key, id⟩

def parsePageToken (codec : Codec CursorWire) (token scope : String) :
    Except String (String × String) :=
  match codec.decode token with
  | none => .error "invalid nextToken"
  | some cursor =>
    if cursor.v ≠ 1 ∨ cursor.scope ≠ scope ∨ cursor.id = "" then .error "invalid nextToken"
    else .ok (cursor.key, cursor.id)

variable (codec : Codec CursorWire) {scope scope' key id : String}

theorem parsePageToken_pageToken (hid : id ≠ "") :
    parsePageToken codec (pageToken codec scope key id) scope = .ok (key, id) := by
  rw [parsePageToken, pageToken, codec.decode_encode]
  exact if_neg (by simpa using hid)

theorem parsePageToken_of_ne (hs : scope ≠ scope') :
    parsePageToken codec (pageToken codec scope key id) scope' = .error "invalid nextToken" := by
  rw [parsePageToken, pageToken, codec.decode_encode]
  exact if_pos (.inr (.inl hs))

end Tokens

section Pages

variable {α : Type} (limit budget : ℕ) (render : α → Json) (shrink : α → ℕ → Json)

/-- The loop over the items left, with the rows served so far and their bytes. Each row stays
with the item it shows. -/
def takeRows : List α → List (α × Json) → ℕ → List (α × Json) × Option ℕ
  | [], served, _ => (served, none)
  | item :: items, served, used =>
    if limit ≤ served.length then (served, some (served.length - 1))
    else if budget < used + (jsonLen (render item) + 1) then
      if served ≠ [] then (served, some (served.length - 1))
      else
        let row := shrink item (budget - (used + 1))
        takeRows items (served ++ [(item, row)]) (used + (jsonLen row + 1))
    else takeRows items (served ++ [(item, render item)]) (used + (jsonLen (render item) + 1))

/-- The rows of a page and, when rows remain, the index of the last item served. -/
def takePage (items : List α) : List (α × Json) × Option ℕ :=
  takeRows limit budget render shrink items [] 2

/-- A row shows its item, whole or made smaller. -/
def Shows (row : α × Json) : Prop := row.2 = render row.1 ∨ ∃ room, row.2 = shrink row.1 room

structure Takes (items : List α) (rows : List (α × Json)) (last : Option ℕ) : Prop where
  shows : ∀ row ∈ rows, Shows render shrink row
  first : ∃ rest, items = rows.map Prod.fst ++ rest ∧ (last = none ↔ rest = [])
  more : ∀ i, last = some i → ∃ before row, rows = before ++ [row] ∧ i = before.length

variable {limit budget render shrink}

theorem takeRows_takes (items : List α) (served : List (α × Json)) (used : ℕ) (hl : 0 < limit)
    (hs : ∀ row ∈ served, Shows render shrink row) :
    Takes render shrink (served.map Prod.fst ++ items)
      (takeRows limit budget render shrink items served used).1
      (takeRows limit budget render shrink items served used).2 := by
  induction items generalizing served used with
  | nil => exact ⟨hs, ⟨[], rfl, Iff.rfl.trans (iff_of_true rfl rfl)⟩, nofun⟩
  | cons item items ih =>
    -- the page ends before this item, which it does only with a row served
    have hst (hne : served ≠ []) : Takes render shrink (served.map Prod.fst ++ item :: items) served
        (some (served.length - 1)) := by
      refine ⟨hs, ⟨item :: items, rfl, iff_of_false (Option.some_ne_none _) (cons_ne_nil _ _)⟩,
        fun i hi => ?_⟩
      cases hi
      exact ⟨served.dropLast, served.getLast hne, (dropLast_append_getLast hne).symm,
        length_dropLast.symm⟩
    have hgo (row : Json) (used' : ℕ) (hrow : Shows render shrink (item, row)) :
        Takes render shrink (served.map Prod.fst ++ item :: items)
          (takeRows limit budget render shrink items (served ++ [(item, row)]) used').1
          (takeRows limit budget render shrink items (served ++ [(item, row)]) used').2 := by
      have hall : ∀ r ∈ served ++ [(item, row)], Shows render shrink r :=
        forall_mem_append.mpr ⟨hs, forall_mem_singleton.mpr hrow⟩
      have hste := ih (served ++ [(item, row)]) used' hall
      rwa [map_append, append_assoc] at hste
    rw [takeRows]
    split_ifs with hf ho hne
    · exact hst fun h => by rw [h] at hf; exact absurd hf (Nat.not_le_of_gt hl)
    · exact hst hne
    · exact hgo _ _ (.inr ⟨_, rfl⟩)
    · exact hgo _ _ (.inl rfl)

theorem takePage_takes (budget : ℕ) (render : α → Json) (shrink : α → ℕ → Json) (hl : 0 < limit)
    (items : List α) :
    Takes render shrink items (takePage limit budget render shrink items).1
      (takePage limit budget render shrink items).2 :=
  takeRows_takes items [] 2 hl fun _ h => absurd h not_mem_nil

end Pages

/-! ## A way to write tokens -/

/-- A number as that many marks. -/
def mark (n : ℕ) : List Char := replicate n 'a' ++ ['b']

def readMark : List Char → Option (ℕ × List Char)
  | 'a' :: rest => (readMark rest).map fun p => (p.1 + 1, p.2)
  | 'b' :: rest => some (0, rest)
  | _ => none

def encodeTexts : List (List Char) → List Char
  | [] => []
  | text :: texts => mark text.length ++ (text ++ encodeTexts texts)

def decodeTexts : ℕ → List Char → Option (List (List Char))
  | _, [] => some []
  | 0, _ :: _ => none
  | fuel + 1, c :: chars => do
      let (n, rest) ← readMark (c :: chars)
      let texts ← decodeTexts fuel (rest.drop n)
      some (rest.take n :: texts)

theorem readMark_mark (n : ℕ) (rest : List Char) : readMark (mark n ++ rest) = some (n, rest) := by
  induction n with
  | zero => rfl
  | succ n ih =>
    show (readMark (mark n ++ rest)).map _ = _
    rw [ih]
    rfl

theorem decodeTexts_encodeTexts (texts : List (List Char)) {fuel : ℕ} (hf : texts.length ≤ fuel) :
    decodeTexts fuel (encodeTexts texts) = some texts := by
  induction texts generalizing fuel with
  | nil => cases fuel <;> rfl
  | cons text texts ih =>
    obtain ⟨fuel, rfl⟩ : ∃ n, fuel = n + 1 := ⟨fuel - 1, by simp at hf; omega⟩
    have hr : decodeTexts fuel (encodeTexts texts) = some texts := ih (by simpa using hf)
    obtain ⟨c, chars, hc⟩ : ∃ c chars, mark text.length ++ (text ++ encodeTexts texts) =
        c :: chars := by
      cases hlen : text.length with
      | zero | succ n => exact ⟨_, _, rfl⟩
    rw [encodeTexts, hc, decodeTexts, ← hc, readMark_mark]
    simp [hr]

theorem length_le_encodeTexts (texts : List (List Char)) :
    texts.length ≤ (encodeTexts texts).length := by
  induction texts with
  | nil => exact Nat.le_refl _
  | cons text texts ih =>
    simp only [encodeTexts, mark, length_append, length_cons, length_replicate, length_nil]
    omega

/-- Values that are told by some texts. -/
def Codec.ofTexts {γ : Type} (texts : γ → List String) (read : List String → Option γ)
    (hread : ∀ c, read (texts c) = some c) : Codec γ where
  encode c := String.ofList (encodeTexts ((texts c).map String.toList))
  decode s := (decodeTexts s.toList.length s.toList).bind fun chars =>
    read (chars.map String.ofList)
  decode_encode c := by
    have hlen := length_le_encodeTexts ((texts c).map String.toList)
    rw [String.toList_ofList, decodeTexts_encodeTexts _ hlen, Option.bind_some, map_map]
    have hid : String.ofList ∘ String.toList = id := funext fun s => String.ofList_toList
    rw [hid, map_id, hread]

/-- Cursors, the version as that many marks. -/
def cursorCodec : Codec CursorWire :=
  .ofTexts (fun c => [String.ofList (replicate c.v 'a'), c.scope, c.key, c.id])
    (fun texts => match texts with
      | [v, scope, key, id] => some ⟨v.toList.length, scope, key, id⟩
      | _ => none)
    (fun c => by simp)

end Intentd.ListPages
