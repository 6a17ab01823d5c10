import Intentd.MachineWords
import Intentd.NoteLists

/-!
# Slim rows over the budget

A conversation row that is too large by itself has its long texts cut first. If that is not enough,
its blocks become stubs, the last one first, until the row fits. The size is not measured again:
each replacement changes it by what the block took before and takes now.
-/
namespace Intentd.SlimRows
open ByteTexts JsonValues ListPages MachineWords NoteLists List

def slimProjectionBudgetBytes : ℕ := 2048

/-- The block with its text cut to `preview`. -/
def truncated (block : Json) (text : String) (preview : List Char) : Json :=
  ((block.insert "text" (.str (String.ofList preview))).insert "textTruncated" (.bool true)).insert
    "textBytes" (.num text.utf8ByteSize.repr)

def cutText (block : Json) : Option Json :=
  if block.strField "type" ∉ [some "text", some "thinking"] ∨
    (block.get "textTruncated").isSome then none
  else (block.strField "text").bind fun text =>
    if text.utf8ByteSize ≤ slimProjectionBudgetBytes then none
    else some (truncated block text (bytesPrefix slimProjectionBudgetBytes text.toList))

def stub (block : Json) : Json :=
  .obj ((block.get "id").toList.map ("id", ·) ++ (block.get "type").toList.map ("type", ·) ++
    [("bodyOmitted", .bool true)])

/-- The size of the row once `new` has the place of `block`. -/
def resized (size : ℕ) (block new : Json) : Option ℕ :=
  (checkedSub size (jsonLen block)).map (· + jsonLen new)

def cutTexts : List Json → ℕ → Option (List Json × ℕ)
  | [], size => some ([], size)
  | block :: blocks, size =>
    ((cutText block).elim (some size) (resized size block)).bind fun size =>
      (cutTexts blocks size).map fun rest => ((cutText block).getD block :: rest.1, rest.2)

/-- The blocks are given from the last one on. -/
def stubTail (budget : ℕ) : List Json → ℕ → Option (List Json × ℕ)
  | [], size => some ([], size)
  | block :: blocks, size =>
    if size ≤ budget then some (block :: blocks, size)
    else (resized size block (stub block)).bind fun size =>
      (stubTail budget blocks size).map fun rest => (stub block :: rest.1, rest.2)

/-- The blocks of the row and its size afterwards. -/
def fitOversizedSlimRow (blocks : List Json) (rowBytes budget : ℕ) : Option (List Json × ℕ) :=
  if rowBytes ≤ budget then some (blocks, rowBytes)
  else (cutTexts blocks rowBytes).bind fun cut =>
    (stubTail budget cut.1.reverse cut.2).map fun rest => (rest.1.reverse, rest.2)

/-- A row with its blocks among other fields. -/
structure Row where
  before : Fields
  key : String
  after : Fields

def Row.toValue (row : Row) (blocks : List Json) : Json :=
  .obj (row.before ++ (row.key, .arr blocks) :: row.after)

/-- A block that is left alone, or one whose text is longer than the limit and was cut between two
characters. -/
inductive Shows (block : Json) : Json → Prop
  | whole : Shows block block
  | cut {text : String} {preview : List Char} (field : block.strField "text" = some text)
      (long : slimProjectionBudgetBytes < text.utf8ByteSize) (part : preview <+: text.toList)
      (short : byteLen preview ≤ slimProjectionBudgetBytes) :
        Shows block (truncated block text preview)

/-- What the row becomes: some blocks are shown, and after them come the stubs of all others. -/
structure Fitted (row : Row) (budget : ℕ) (blocks after : List Json) : Prop where
  unchanged : jsonLen (row.toValue blocks) ≤ budget → after = blocks
  ids : after.map (Json.get · "id") = blocks.map (Json.get · "id")
  parts : ∃ kept shown rest, blocks = kept ++ rest ∧ after = shown ++ rest.map stub ∧
    Forall₂ Shows kept shown ∧ (jsonLen (row.toValue after) ≤ budget ∨ shown = [])

section Sizes

theorem resized_eq (frame more : ℕ) (block new : Json) :
    resized (frame + (jsonLen block + 1 + more)) block new =
      some (frame + (jsonLen new + 1 + more)) := by
  rw [resized, checkedSub, if_pos (by omega), Option.map_some]
  congr 1
  omega

theorem cutTexts_eq (blocks : List Json) (frame : ℕ) : cutTexts blocks (frame + itemsLen blocks) =
    some (blocks.map fun b => (cutText b).getD b,
      frame + itemsLen (blocks.map fun b => (cutText b).getD b)) := by
  induction blocks generalizing frame with
  | nil => rfl
  | cons block blocks ih =>
    have hs : (cutText block).elim (some (frame + itemsLen (block :: blocks)))
        (resized (frame + itemsLen (block :: blocks)) block) =
          some (frame + (jsonLen ((cutText block).getD block) + 1 + itemsLen blocks)) := by
      cases cutText block with
      | none => rfl
      | some new => exact resized_eq ..
    rw [cutTexts, hs, Option.bind_some, ← Nat.add_assoc, ih, map_cons, itemsLen,
      Option.map_some, Nat.add_assoc]

theorem stubTail_eq (budget : ℕ) (blocks : List Json) (frame : ℕ) :
    ∃ rest shown, blocks = rest ++ shown ∧ stubTail budget blocks (frame + itemsLen blocks) =
      some (rest.map stub ++ shown, frame + itemsLen (rest.map stub ++ shown)) ∧
    (frame + itemsLen (rest.map stub ++ shown) ≤ budget ∨ shown = []) := by
  induction blocks generalizing frame with
  | nil => exact ⟨[], [], rfl, rfl, .inr rfl⟩
  | cons block blocks ih =>
    rw [stubTail]
    split_ifs with hs
    · exact ⟨[], block :: blocks, rfl, rfl, .inl hs⟩
    · obtain ⟨rest, shown, hb, hn, hf⟩ := ih (frame + (jsonLen (stub block) + 1))
      rw [Nat.add_assoc] at hn hf
      refine ⟨block :: rest, shown, by rw [hb, cons_append], ?_, hf⟩
      rw [itemsLen, resized_eq, Option.bind_some, hn, Option.map_some, Nat.add_assoc]
      rfl

theorem itemsLen_reverse (blocks : List Json) : itemsLen blocks.reverse = itemsLen blocks := by
  induction blocks with
  | nil => rfl
  | cons block blocks ih =>
    rw [reverse_cons, itemsLen_append, ih, itemsLen, itemsLen, itemsLen]
    omega

/-- What a row takes apart from its blocks and their commas. -/
def Row.frame (row : Row) : ℕ :=
  fieldsLen row.before + escapedLen row.key.toList + fieldsLen row.after + 6

theorem Row.jsonLen_toValue (row : Row) {blocks : List Json} (h : blocks ≠ []) :
    jsonLen (row.toValue blocks) = row.frame + itemsLen blocks := by
  cases blocks with
  | nil => exact absurd rfl h
  | cons block blocks =>
    simp only [Row.toValue, Row.frame, jsonLen, fieldsLen_append, fieldsLen, itemsLen]
    omega

end Sizes

section Blocks

variable {key : String} {block : Json}

theorem get_stub (block : Json) : (stub block).get "id" = block.get "id" := by
  rw [stub]
  cases block.get "id" <;> cases block.get "type" <;> rfl

theorem shows_cutText (block : Json) : Shows block ((cutText block).getD block) := by
  rw [cutText]
  split_ifs with h
  · exact .whole
  · cases ht : block.strField "text" with
    | none => exact .whole
    | some text =>
      rw [Option.bind_some]
      split_ifs with hl
      · exact .whole
      · exact .cut ht (Nat.lt_of_not_le hl) (bytesPrefix_spec ..).1 (bytesPrefix_spec ..).2

theorem Shows.get {shown : Json} (h : Shows block shown)
    (hk : key ∉ ["text", "textTruncated", "textBytes"]) : shown.get key = block.get key := by
  simp only [mem_cons, not_or] at hk
  cases h with
  | whole => rfl
  | cut =>
    rw [truncated, Json.get_insert_ne hk.2.2.1, Json.get_insert_ne hk.2.1, Json.get_insert_ne hk.1]

theorem Shows.stub {shown : Json} (h : Shows block shown) : stub shown = SlimRows.stub block := by
  rw [SlimRows.stub, h.get (by decide), h.get (by decide), SlimRows.stub]

/-- The size that is returned is that of the row afterwards. No subtraction fails. -/
theorem oversized_row_fitted (row : Row) (blocks : List Json) (budget : ℕ) : ∃ after,
    fitOversizedSlimRow blocks (jsonLen (row.toValue blocks)) budget =
      some (after, jsonLen (row.toValue after)) ∧ Fitted row budget blocks after := by
  rw [fitOversizedSlimRow]
  split_ifs with hb
  · exact ⟨blocks, rfl, fun _ => rfl, rfl, blocks, blocks, [], by simp, by simp,
      forall₂_same.mpr fun _ _ => .whole, .inl hb⟩
  · by_cases hnil : blocks = []
    · subst hnil
      exact ⟨[], rfl, fun _ => rfl, rfl, [], [], [], rfl, rfl, .nil, .inr rfl⟩
    · obtain ⟨rest, shown, hr, hs, hf⟩ :=
        stubTail_eq budget (blocks.map fun b => (cutText b).getD b).reverse row.frame
      rw [itemsLen_reverse] at hs
      rw [row.jsonLen_toValue hnil, cutTexts_eq, Option.bind_some, hs, Option.map_some]
      rw [reverse_eq_iff, reverse_append] at hr
      obtain ⟨kept, hidden, rfl, hk, hh⟩ := map_eq_append_iff.mp hr
      have hst : (rest.map stub ++ shown).reverse = shown.reverse ++ hidden.map stub := by
        rw [reverse_append, ← map_reverse, ← hh, map_map]
        exact congrArg _ (map_congr_left fun b _ => (shows_cutText b).stub)
      have hne : shown.reverse ++ hidden.map stub ≠ [] := by simpa [← hk] using hnil
      rw [← itemsLen_reverse, hst, ← row.jsonLen_toValue hne] at hf ⊢
      refine ⟨_, rfl, fun hle => absurd hle hb, ?_, kept, _, hidden, rfl, rfl, ?_,
        hf.imp_right (by simp [·])⟩
      · rw [map_append, map_append, ← hk, map_map, map_map]
        exact congrArg₂ _ (map_congr_left fun b _ => (shows_cutText b).get (by decide))
          (map_congr_left fun b _ => get_stub b)
      · rw [← hk, forall₂_map_right_iff]
        exact forall₂_same.mpr fun b _ => shows_cutText b

end Blocks

end Intentd.SlimRows
