import Intentd.TurnRecorder

/-!
# Where the recorder puts blocks

Recording a tool call is a chain of puts: a block is appended after the open text is closed,
or put in the place of one that has the same role. So a place in the message keeps the role
it got: the use or the result of one call, or a proposal; and everything else is only
appended, but for the open text, which grows.
-/
namespace Intentd.TurnRecorder
open JsonValues UnicodeText ImageReferences ToolBlocks Option List

def ToolDescription.block (d : ToolDescription) (id call status : String) : Json :=
  buildToolUseBlock id d.toolName d.title d.input call d.toolKind status

section ToolUse

variable (id name : String) (input : Json) (call kind status : String)

/-- A `tool_use` block with the input as it is. -/
@[simp] def toolUse : Json :=
  .obj [("type", .str "tool_use"), ("id", .str id), ("name", .str name), ("input", input),
    ("toolCallId", .str call),
      ("metadata", .obj [("toolKind", .str kind), ("status", .str status)])]

theorem buildToolUseBlock_eq (title : String) :
    buildToolUseBlock id name title input call kind status =
      toolUse id name (attachAcpTitle input title) call kind status := rfl

theorem describe_toolUse (tc : MappedToolCall) :
    describe tc true (toolUse id name input call kind status) =
      ⟨name, (input.strField "_acpTitle").getD tc.title, kind, input⟩ := rfl

theorem toolUse_insert_input (input' : Json) :
    (toolUse id name input call kind status).insert "input" input' =
      toolUse id name input' call kind status := by
  simp [Json.insert, Fields.insert]

theorem toolUse_remove {key : String} (hkey : Fields.get key [("type", .null), ("id", .null),
    ("name", .null), ("input", .null), ("toolCallId", .null), ("metadata", .null)] = none) :
    (toolUse id name input call kind status).remove key =
      toolUse id name input call kind status := by
  rw [toolUse, Json.remove, Fields.remove_of_get]
  simp only [Fields.get] at hkey ⊢
  split_ifs at hkey ⊢
  rfl

theorem toolUse_patch_status (status' : String) :
    (match (toolUse id name input call kind status).get "metadata" with
      | some (.obj fields) => (toolUse id name input call kind status).insert "metadata"
          (.obj (Fields.insert "status" (.str status') fields))
      | _ => toolUse id name input call kind status) =
      toolUse id name input call kind status' := by
  simp [Json.get, Fields.get, Json.insert, Fields.insert]

end ToolUse

inductive Role where
  | use (toolCallId : String)
  | result (toolCallId : String)
  | proposal (toolCallId : String)

/-- A block that has a role, under an id. -/
def HasRole (id : String) (block : Json) : Role → Prop
  | .use call => ∃ name input kind status, input ≠ .null ∧
      block = toolUse id name input call kind status
  | .result call => ∃ output isError, block = toolResultBlock id call output isError
  | .proposal _ => block.strField "type" = some "resource" ∧ block.strField "id" = some id

def Transcript.index (t : Transcript) : Role → Option ℕ
  | .use call => t.toolUseIndex call
  | .result call => t.toolResultIndex call
  | .proposal call => t.proposalIndex call

open Transcript

/-- Neither text nor thought. -/
def Plain (block : Json) : Prop :=
  block.strField "type" ≠ some "text" ∧ block.strField "type" ≠ some "thinking"

variable {id : String} {block : Json} {role role' : Role}

theorem HasRole.strField_id (h : HasRole id block role) : block.strField "id" = some id := by
  cases role with
  | use call =>
    obtain ⟨name, input, kind, status, -, rfl⟩ := h
    rfl
  | result call =>
    obtain ⟨output, isError, rfl⟩ := h
    rfl
  | proposal call => exact h.2

@[simp] def Role.marks : Role → Option String × Option String × Option String
  | .use call => (some "tool_use", some call, none)
  | .result call => (some "tool_result", none, some call)
  | .proposal _ => (some "resource", none, none)

theorem HasRole.marks (h : HasRole id block role) : block.strField "type" = role.marks.1 ∧
      (block.strField "type" ≠ some "resource" → block.strField "toolCallId" = role.marks.2.1 ∧
          block.strField "tool_use_id" = role.marks.2.2) := by
  cases role with
  | use call =>
    obtain ⟨name, input, kind, status, -, rfl⟩ := h
    exact ⟨rfl, fun _ => ⟨rfl, rfl⟩⟩
  | result call =>
    obtain ⟨output, isError, rfl⟩ := h
    exact ⟨rfl, fun _ => ⟨rfl, rfl⟩⟩
  | proposal call => exact ⟨h.1, fun hnot => absurd h.1 hnot⟩

theorem HasRole.plain (h : HasRole id block role) : Plain block := by
  rw [Plain, h.marks.1]
  cases role <;> simp

theorem HasRole.replace {old : Json} (hold : HasRole id old role)
    (ho' : HasRole id old role') (h : HasRole id block role) : HasRole id block role' := by
  have hm := hold.marks
  have hm' := ho'.marks
  have ht := hm.1.symm.trans hm'.1
  cases role with
  | use call =>
    cases role' with
    | use call' =>
      have hc := (hm.2 (by simp [hm.1])).1.symm.trans (hm'.2 (by simp [hm'.1])).1
      rw [← some.inj hc]
      exact h
    | result call' | proposal call' => simp at ht
  | result call =>
    cases role' with
    | use call' | proposal call' => simp at ht
    | result call' =>
      have hc := (hm.2 (by simp [hm.1])).2.symm.trans (hm'.2 (by simp [hm'.1])).2
      rw [← some.inj hc]
      exact h
  | proposal call =>
    cases role' with
    | use call' | result call' => simp at ht
    | proposal call' => exact h

/-- What is true of every transcript: a role's index is the place of a block of that role,
blocks have the ids of their places, and an open text has been scanned for images. -/
structure Sound (t : Transcript) : Prop where
  roles : ∀ role i, t.index role = some i →
    ∃ block, t.blocks[i]? = some block ∧ HasRole (t.blockId i) block role
  ids : ∀ i block, t.blocks[i]? = some block → block.strField "id" = some (t.blockId i)
  empty : t.text = "" → t.pendingMedia = []
  scanned : t.probe = true → t.pendingThought = false → t.mediaRefsSeen < maxImageRefsPerBlock →
    scanImageRefs t.text t.mediaScanPos = ([], t.mediaScanPos)

theorem Sound.new (messageId : String) (probe : Bool) : Sound (.new messageId probe) where
  roles role i h := by cases role <;> cases h
  ids i block h := by cases h
  empty _ := rfl
  scanned _ _ _ := rfl

/-- A block is put in a place: that of an earlier one, or a new one at the end. -/
inductive Puts (t : Transcript) (i : ℕ) (block : Json) (t' : Transcript) : Prop
  | replaced (hi : i < t.blocks.length) (blocks : t'.blocks = t.blocks.set i block)
      (frame : t'.messageId = t.messageId ∧ t'.text = t.text ∧
        t'.pendingThought = t.pendingThought ∧
        t'.probe = t.probe ∧ t'.pendingMedia = t.pendingMedia ∧ t'.mediaScanPos = t.mediaScanPos ∧
        t'.mediaRefsSeen = t.mediaRefsSeen)
  | appended (hi : i = t.snapshotBlocks.length) (blocks : t'.blocks = t.snapshotBlocks ++ [block])
      (frame : t'.messageId = t.messageId ∧ t'.text = "" ∧ t'.pendingThought = false ∧
        t'.probe = t.probe ∧ t'.pendingMedia = [] ∧ t'.mediaScanPos = 0 ∧ t'.mediaRefsSeen = 0)

variable {i : ℕ}

section Puts

variable {t t' : Transcript}

theorem Puts.messageId (h : Puts t i block t') : t'.messageId = t.messageId := by
  cases h with
  | replaced hi blocks frame | appended hi blocks frame => exact frame.1

theorem Puts.blockId (h : Puts t i block t') (j : ℕ) : t'.blockId j = t.blockId j := by
  rw [Transcript.blockId, Transcript.blockId, h.messageId]

theorem strField_pendingBlock (t : Transcript) :
    t.pendingBlock.strField "id" = some (t.blockId t.blocks.length) ∧
      t.pendingBlock.strField "type" = some (textType t.pendingThought) ∧
      t.pendingBlock.strField "text" = some t.text := ⟨rfl, rfl, rfl⟩

theorem Sound.snapshot_ids (h : Sound t) (hget : t.snapshotBlocks[i]? = some block) :
    block.strField "id" = some (t.blockId i) := by
  unfold snapshotBlocks at hget
  split_ifs at hget with ht
  · exact h.ids i block hget
  · rw [getElem?_append] at hget
    split_ifs at hget with hi
    · exact h.ids i block hget
    · rw [getElem?_singleton] at hget
      split_ifs at hget with hl
      have heq : i = t.blocks.length := by omega
      rw [← some.inj hget, heq]
      exact (strField_pendingBlock t).1

theorem getElem?_append_of_some {blocks more : List Json} (h : blocks[i]? = some block) :
    (blocks ++ more)[i]? = some block :=
  (getElem?_append_left (List.getElem?_eq_some_iff.mp h).1).trans h

theorem length_snapshotBlocks (t : Transcript) :
    t.blocks.length ≤ t.snapshotBlocks.length ∧ t.snapshotBlocks.length ≤ t.blocks.length + 1 := by
  unfold snapshotBlocks
  split_ifs <;> simp

theorem getElem?_snapshotBlocks (hi : i < t.blocks.length) :
    t.snapshotBlocks[i]? = t.blocks[i]? := by
  unfold snapshotBlocks
  split_ifs
  · rfl
  · exact getElem?_append_left hi

theorem getElem?_blocks_le (t : Transcript) (h : t.blocks[i]? = some block) :
    t.snapshotBlocks[i]? = some block :=
  (getElem?_snapshotBlocks (List.getElem?_eq_some_iff.mp h).1).trans h

theorem Sound.append (h : Sound t) (hi : i = t.snapshotBlocks.length)
    (hbl : t'.blocks = t.snapshotBlocks ++ [block])
    (hf : t'.messageId = t.messageId ∧ t'.text = "" ∧ t'.pendingThought = false ∧
      t'.probe = t.probe ∧ t'.pendingMedia = [] ∧ t'.mediaScanPos = 0 ∧ t'.mediaRefsSeen = 0)
    (hblo : block.strField "id" = some (t.blockId i)) (hin : ∀ role j, t'.index role = some j →
      t.index role = some j ∨ j = i ∧ HasRole (t.blockId i) block role) : Sound t' := by
  obtain ⟨hm, ht, -, -, hme, hpos, -⟩ := hf
  have hid : ∀ j, t'.blockId j = t.blockId j := by
    intro j
    rw [blockId, hm]
    rfl
  refine ⟨fun role j hj => ?_, fun j b hb => ?_, fun _ => hme, fun _ _ _ => ?_⟩
  · rw [hid, hbl]
    rcases hin role j hj with hj | ⟨rfl, hr⟩
    · obtain ⟨b, hb, hb'⟩ := h.roles role j hj
      exact ⟨b, getElem?_append_of_some (getElem?_blocks_le t hb), hb'⟩
    · refine ⟨block, ?_, hr⟩
      rw [hi, getElem?_concat_length]
  · rw [hid]
    rw [hbl, getElem?_append] at hb
    split_ifs at hb with hj
    · exact h.snapshot_ids hb
    · rw [getElem?_singleton] at hb
      split_ifs at hb with hl
      have heq : j = i := by omega
      rw [← some.inj hb, heq]
      exact hblo
  · rw [ht, hpos]
    rfl

theorem Sound.pushBlock (h : Sound t) (fields : Fields) : Sound (t.pushBlock (.obj fields)) := by
  refine h.append rfl rfl ⟨rfl, rfl, rfl, rfl, rfl, rfl, rfl⟩
    (Json.strField_eq_some.mpr (Fields.get_insert_self _)) fun role j hj => .inl ?_
  cases role <;> exact hj

/-- A block of a role is put at the end, or in the place of one that has the role. -/
structure Records (t : Transcript) (i : ℕ) (block : Json) (role : Role) (t' : Transcript) :
    Prop where
  puts : Puts t i block t'
  hasRole : HasRole (t.blockId i) block role
  old : i < t.blocks.length → ∃ old, t.blocks[i]? = some old ∧ HasRole (t.blockId i) old role

theorem Sound.record (h : Sound t) (hre : Records t i block role t')
    (hin : ∀ role' j, t'.index role' = some j → t.index role' = some j ∨ role' = role ∧ j = i) :
    Sound t' := by
  obtain ⟨hput, hr, hold⟩ := hre
  have hid := hput.blockId
  cases hput with
  | replaced hi blocks frame =>
    obtain ⟨-, hte, ht, hpr, hm, hpos, hs⟩ := frame
    have hp : t'.blocks[i]? = some block := by
      rw [blocks, getElem?_set, if_pos rfl, if_pos hi]
    refine ⟨fun role' j hj => ?_, fun j b hb => ?_, ?_, ?_⟩
    · rw [hid]
      rcases hin role' j hj with hj | ⟨rfl, rfl⟩
      · obtain ⟨b, hb, hb'⟩ := h.roles role' j hj
        by_cases hij : i = j
        · subst hij
          obtain ⟨old, hold, hr'⟩ := hold hi
          rw [hb] at hold
          cases hold
          exact ⟨block, hp, hr'.replace hb' hr⟩
        · rw [blocks, getElem?_set, if_neg hij]
          exact ⟨b, hb, hb'⟩
      · exact ⟨block, hp, hr⟩
    · rw [hid]
      rw [blocks, getElem?_set] at hb
      split_ifs at hb with hij
      · cases hb
        exact hij ▸ hr.strField_id
      · exact h.ids j b hb
    · rw [hte, hm]
      exact h.empty
    · rw [hte, ht, hpr, hpos, hs]
      exact h.scanned
  | appended hi blocks frame =>
    refine h.append hi blocks frame hr.strField_id fun role' j hj => ?_
    refine (hin role' j hj).imp_right ?_
    rintro ⟨rfl, rfl⟩
    exact ⟨rfl, hr⟩

end Puts

/-- A patched block is the block of what it has become, with the title it carries. -/
theorem patchToolUse_spec (tc : MappedToolCall) (id name : String) {input : Json}
    (hn : input ≠ .null) (call kind status : String) :
    ∃ name' input', input' ≠ .null ∧ patchToolUse tc (toolUse id name input call kind status) =
        toolUse id name' input' call kind tc.status.word ∧
      (tc.title = "" ∨ (input'.strField "_acpTitle").isSome ∨ input'.asObj = none) := by
  obtain ⟨name', hna⟩ : ∃ name', (if tc.title ≠ "" ∧ isBlank tc.toolName = false then
      (toolUse id name input call kind status).insert "name" (.str tc.toolName)
      else toolUse id name input call kind status) = toolUse id name' input call kind status := by
    split_ifs
    · exact ⟨tc.toolName, by simp [Json.insert, Fields.insert]⟩
    · exact ⟨name, rfl⟩
  refine ⟨name', ?_⟩
  unfold patchToolUse
  rw [hna]
  dsimp only
  have hget : (toolUse id name' input call kind status).get "input" = some input := by
    simp [Json.get, Fields.get]
  have hf : (toolUse id name' input call kind status).get "inputTruncated" = none := by
    simp [Json.get, Fields.get]
  by_cases hin : tc.input.isNull = true
  · rw [if_pos hin, hget, hf]
    by_cases ht : tc.title = ""
    · rw [if_pos ht]
      exact ⟨input, hn, toolUse_patch_status .., .inl ht⟩
    · rw [if_neg ht]
      cases input with
      | obj fields =>
        refine ⟨.obj (Fields.insert "_acpTitle" (.str tc.title) fields), by simp, ?_,
          .inr (.inl ?_)⟩
        · dsimp only
          exact toolUse_patch_status ..
        · rw [Json.strField, Json.get, Fields.get_insert_self]
          rfl
      | null => exact absurd rfl hn
      | _ => exact ⟨_, hn, toolUse_patch_status .., .inr (.inr rfl)⟩
  · rw [if_neg hin, toolUse_insert_input, toolUse_remove _ _ _ _ _ _ rfl,
      toolUse_remove _ _ _ _ _ _ rfl]
    generalize ht : (if tc.title = "" then (acpTitle
      (toolUse id name' input call kind status)).getD "" else tc.title) = title
    refine ⟨_, attachAcpTitle_ne_null tc.input title, toolUse_patch_status .., ?_⟩
    exact attachAcpTitle_carries (fun h => hin (Json.isNull_iff.mpr h)) fun he => by
      rw [he] at ht
      by_contra hne
      rw [if_neg hne] at ht
      exact hne ht

section Record

variable {t t' : Transcript} {tc : MappedToolCall} {blocks more : List (String × Json)}
  {t'' : Transcript} {item : Json}

theorem Records.keeps (h : Records t i block role t') {k : ℕ} {kept : Json}
    (hk : t.blocks[k]? = some kept) (hr' : HasRole (t.blockId k) kept role')
    (hne : role'.marks.1 ≠ role.marks.1) : t'.blocks[k]? = some kept := by
  cases h.puts with
  | replaced hi blocks frame =>
    rw [blocks, getElem?_set]
    split_ifs with hik
    · subst hik
      obtain ⟨old, hold, hr⟩ := h.old hi
      rw [hk] at hold
      cases hold
      exact absurd (hr'.marks.1.symm.trans hr.marks.1) hne
    · exact hk
  | appended hi blocks frame =>
    rw [blocks]
    exact getElem?_append_of_some (getElem?_blocks_le t hk)

theorem modify_eq_set {blocks : List Json} {f : Json → Json} (h : blocks[i]? = some block) :
    blocks.modify i f = blocks.set i (f block) := by
  refine ext_getElem? fun j => ?_
  rw [getElem?_modify, List.getElem?_set]
  obtain ⟨hi, heq⟩ := List.getElem?_eq_some_iff.mp h
  by_cases hij : i = j
  · subst hij
    rw [h, if_pos rfl, if_pos hi]
    simp
  · simp [hij]

theorem Records.replace (h : Sound t) (hi : t.index role = some i)
    (hr : HasRole (t.blockId i) block role) (hp : i < t.blocks.length → Puts t i block t') :
    Records t i block role t' := by
  obtain ⟨old, hold, ho'⟩ := h.roles role i hi
  exact ⟨hp (List.getElem?_eq_some_iff.mp hold).1, hr, fun _ => ⟨old, hold, ho'⟩⟩

theorem Records.append (hr : HasRole (t.blockId t.snapshotBlocks.length) block role)
    (hp : Puts t t.snapshotBlocks.length block t') :
    Records t t.snapshotBlocks.length block role t' :=
  ⟨hp, hr, fun hlt => absurd (length_snapshotBlocks t).1 (Nat.not_le_of_lt hlt)⟩

theorem update_eq_some {index : String → Option ℕ} {call call' : String} {j : ℕ}
    (h : Function.update index call (some i) call' = some j) :
    index call' = some j ∨ call' = call ∧ j = i := by
  rw [Function.update_apply] at h
  split_ifs at h with hc
  · exact .inr ⟨hc, (some.inj h).symm⟩
  · exact .inl h

theorem recordUse_records (h : Sound t) (hr : t.recordUse tc = some (t', i)) :
    ∃ block, Records t i block (.use tc.toolCallId) t' ∧ Sound t' ∧ t'.blocks[i]? = some block ∧
      (describe tc (t.toolNameFor tc.toolCallId).isSome block).block (t.blockId i) tc.toolCallId
        tc.status.word = block := by
  unfold recordUse at hr
  cases hin : t.toolUseIndex tc.toolCallId with
  | some k =>
    rw [hin] at hr
    cases hr
    obtain ⟨old, hold, name, input, kind, status, hn, rfl⟩ := h.roles (.use _) i hin
    obtain ⟨name', input', hn', hp, hc⟩ :=
      patchToolUse_spec tc (t.blockId i) name hn tc.toolCallId kind status
    have hk : t.toolNameFor tc.toolCallId = some name := by
      simp [toolNameFor, toolUseBlock, hin, hold, Json.strField, Json.get, Fields.get, Json.asStr]
    have hre : Records t i _ (.use tc.toolCallId)
        { t with blocks := t.blocks.modify i (patchToolUse tc) } :=
      .replace h hin ⟨name', input', kind, tc.status.word, hn', rfl⟩ fun hlt =>
          .replaced hlt (by rw [modify_eq_set hold, hp]) ⟨rfl, rfl, rfl, rfl, rfl, rfl, rfl⟩
    refine ⟨_, hre, h.record hre fun role' j hj => .inl ?_, ?_, ?_⟩
    · cases role' <;> exact hj
    · rw [modify_eq_set hold, hp, getElem?_set, if_pos rfl,
        if_pos (List.getElem?_eq_some_iff.mp hold).1]
    · rw [hk, isSome_some, describe_toolUse]
      rw [ToolDescription.block, buildToolUseBlock_eq, attachAcpTitle_again hn' hc]
  | none =>
    rw [hin] at hr
    split_ifs at hr
    cases hr
    have hu : t.toolNameFor tc.toolCallId = none := by
      simp [toolNameFor, toolUseBlock, hin]
    have hro : HasRole (t.blockId t.snapshotBlocks.length) (buildToolUseBlock
        (t.blockId t.snapshotBlocks.length) tc.toolName tc.title tc.input tc.toolCallId
        tc.toolKind.word tc.status.word) (.use tc.toolCallId) :=
      ⟨_, _, _, _, attachAcpTitle_ne_null tc.input tc.title, rfl⟩
    have hre : Records t _ _ _ { t.append fun id => buildToolUseBlock id
          tc.toolName tc.title tc.input tc.toolCallId tc.toolKind.word tc.status.word with
        toolUseIndex :=
          Function.update t.toolUseIndex tc.toolCallId (some t.snapshotBlocks.length) } :=
      .append hro (.appended rfl rfl ⟨rfl, rfl, rfl, rfl, rfl, rfl, rfl⟩)
    refine ⟨_, hre, h.record hre fun role' j hj => ?_, ?_, ?_⟩
    · cases role' with
      | use call => exact (update_eq_some hj).imp_right fun heq => ⟨congrArg Role.use heq.1, heq.2⟩
      | result call | proposal call => exact .inl hj
    · exact getElem?_concat_length
    · rw [hu]
      rfl

/-- A chain of puts, with the blocks under their ids. -/
inductive RecordsAll : Transcript → List (String × Json) → Transcript → Prop
  | nil {t : Transcript} : RecordsAll t [] t
  | cons {t t' t'' : Transcript} {i : ℕ} {block : Json} {role : Role}
      {blocks : List (String × Json)} :
      Sound t → Records t i block role t' → RecordsAll t' blocks t'' →
        RecordsAll t ((t.blockId i, block) :: blocks) t''

theorem RecordsAll.append (h : RecordsAll t blocks t') (h' : RecordsAll t' more t'') :
    RecordsAll t (blocks ++ more) t'' := by
  induction h with
  | nil => exact h'
  | cons hs hr _ ih => exact .cons hs hr (ih h')

theorem RecordsAll.messageId (h : RecordsAll t blocks t') : t'.messageId = t.messageId := by
  induction h with
  | nil => rfl
  | cons _ hr _ ih => exact ih.trans hr.puts.messageId

/-- A chain of puts that leaves the uses of calls alone. -/
structure Attaches (t : Transcript) (blocks : List (String × Json)) (t' : Transcript) : Prop where
  chain : RecordsAll t blocks t'
  sound : Sound t'
  uses : ∀ k kept call, t.blocks[k]? = some kept → HasRole (t.blockId k) kept (.use call) →
    t'.blocks[k]? = some kept

theorem Attaches.refl (h : Sound t) : Attaches t [] t := ⟨.nil, h, fun _ _ _ hk _ => hk⟩

theorem Attaches.one (h : Sound t) (hr : Records t i block role t') (hs : Sound t')
    (hro : some "tool_use" ≠ role.marks.1) : Attaches t [(t.blockId i, block)] t' :=
  ⟨.cons h hr .nil, hs, fun _ _ _ hk hke => hr.keeps hk hke hro⟩

theorem Attaches.trans (h : Attaches t blocks t') (h' : Attaches t' more t'') :
    Attaches t (blocks ++ more) t'' := by
  refine ⟨h.chain.append h'.chain, h'.sound, fun k kept call hk hke => ?_⟩
  refine h'.uses k kept call (h.uses k kept call hk hke) ?_
  rw [blockId, h.chain.messageId]
  exact hke

/-- The `tool_result` block of an update, if it made one. -/
def resultPart (t : Transcript) (tc : MappedToolCall) : Option ℕ → List (String × Json)
  | some i =>
    match tc.output with
    | some output =>
      [(t.blockId i, toolResultBlock (t.blockId i) tc.toolCallId output (tc.status = .error))]
    | none => []
  | none => []

theorem recordResult_attaches (h : Sound t) (tc : MappedToolCall) :
    Attaches t (resultPart t tc (t.recordResult tc).2) (t.recordResult tc).1 := by
  unfold recordResult
  cases ho : tc.output with
  | none => exact .refl h
  | some output =>
    split_ifs with hs
    · exact .refl h
    · have hro : ∀ i, HasRole (t.blockId i) (toolResultBlock (t.blockId i) tc.toolCallId output
          (tc.status = .error)) (.result tc.toolCallId) := fun i => ⟨_, _, rfl⟩
      cases hin : t.toolResultIndex tc.toolCallId with
      | some k =>
        obtain ⟨old, hold, output', isError', rfl⟩ := h.roles (.result _) k hin
        have hp : patchToolResult output (tc.status = .error)
            (toolResultBlock (t.blockId k) tc.toolCallId output' isError') =
            toolResultBlock (t.blockId k) tc.toolCallId output (tc.status = .error) := by
          simp [patchToolResult, toolResultBlock, Json.insert, Fields.insert,
            Json.remove, Fields.remove]
        have hr : Records t k _ (.result tc.toolCallId) { t with
            blocks := t.blocks.modify k (patchToolResult output (tc.status = .error)) } :=
          .replace h hin (hro k) fun hlt =>
            .replaced hlt (by rw [modify_eq_set hold, hp]) ⟨rfl, rfl, rfl, rfl, rfl, rfl, rfl⟩
        simp only [resultPart, ho]
        refine .one h hr (h.record hr fun role' j hj => .inl ?_) (by simp)
        cases role' <;> exact hj
      | none =>
        have hr : Records t _ _ _ {
            t.append fun id => toolResultBlock id tc.toolCallId output (tc.status = .error) with
            toolResultIndex :=
              Function.update t.toolResultIndex tc.toolCallId (some t.snapshotBlocks.length) } :=
          .append (hro _) (.appended rfl rfl ⟨rfl, rfl, rfl, rfl, rfl, rfl, rfl⟩)
        simp only [resultPart, ho]
        refine .one h hr (h.record hr fun role' j hj => ?_) (by simp)
        cases role' with
        | result call =>
          exact (update_eq_some hj).imp_right fun heq => ⟨congrArg Role.result heq.1, heq.2⟩
        | use call | proposal call => exact .inl hj

/-- The blocks of items, under the ids of their places. -/
def proposalPart (t : Transcript) (items : List Json) (indices : List ℕ) : List (String × Json) :=
  (items.zip indices).map fun placed =>
    (t.blockId placed.2, buildProposalResourceBlock (t.blockId placed.2) placed.1)

theorem hasRole_proposal {call : String} (h : item.strField "type" = some "resource") :
    HasRole id (buildProposalResourceBlock id item) (.proposal call) := by
  have ht := Json.strField_eq_some.mp h
  exact ⟨(strField_proposalBlock id (by decide)).trans h,
    Json.strField_eq_some.mpr (Json.get_insert_of_get ht)⟩

theorem recordProposal_attaches (h : Sound t) (call : String) (first : Bool)
    (hit : item.strField "type" = some "resource") :
    Attaches t [(t.blockId (t.recordProposal call first item).2, buildProposalResourceBlock
      (t.blockId (t.recordProposal call first item).2) item)]
        (t.recordProposal call first item).1 := by
  unfold recordProposal
  cases hin : (if first then t.proposalIndex call else none) with
  | some k =>
    have hk : t.proposalIndex call = some k := by
      split_ifs at hin
      exact hin
    have hr : Records t k _ (.proposal call) { t with
        blocks := t.blocks.set k (buildProposalResourceBlock (t.blockId k) item) } :=
      .replace h hk (hasRole_proposal hit) fun hlt =>
        .replaced hlt rfl ⟨rfl, rfl, rfl, rfl, rfl, rfl, rfl⟩
    refine .one h hr (h.record hr fun role' j hj => .inl ?_) (by simp)
    cases role' <;> exact hj
  | none =>
    have hr : Records t _ _ (.proposal call) {
        t.append fun id => buildProposalResourceBlock id item with
        proposalIndex := if first then
            Function.update t.proposalIndex call (some t.snapshotBlocks.length)
          else t.proposalIndex } :=
      .append (hasRole_proposal hit) (.appended rfl rfl ⟨rfl, rfl, rfl, rfl, rfl, rfl, rfl⟩)
    refine .one h hr (h.record hr fun role' j hj => ?_) (by simp)
    cases role' with
    | proposal call' =>
      split_ifs at hj
      · exact (update_eq_some hj).imp_right fun heq => ⟨congrArg Role.proposal heq.1, heq.2⟩
      · exact .inl hj
    | use call' | result call' => exact .inl hj

theorem recordProposals_attaches (call : String) (items : List Json) :
    ∀ (t : Transcript) (first : Bool), Sound t →
      (∀ item ∈ items, item.strField "type" = some "resource") →
      Attaches t (proposalPart t items (recordProposals call first items t).2)
        (recordProposals call first items t).1 ∧
      (recordProposals call first items t).2.length = items.length := by
  induction items with
  | nil => exact fun t first h _ => ⟨.refl h, rfl⟩
  | cons item items ih =>
    intro t first h hit
    obtain ⟨hite, hr⟩ := forall_mem_cons.mp hit
    have hone := recordProposal_attaches h call first hite
    obtain ⟨hm, hl⟩ := ih _ false hone.sound hr
    refine ⟨?_, congrArg (· + 1) hl⟩
    have hids : ∀ j, (t.recordProposal call first item).1.blockId j = t.blockId j := by
      intro j
      rw [blockId, hone.chain.messageId]
      rfl
    simp only [proposalPart, hids] at hm ⊢
    exact hone.trans hm

/-- What a tool update records: its use, its result and its proposals. -/
theorem recordTool_records {rebuild : Json → Option Resource} {registered : List Json}
    {recorded : RecordedToolBlocks} (h : Sound t)
    (hreg : ∀ item ∈ registered, item.strField "type" = some "resource")
    (hrec : t.recordTool rebuild tc registered = some (t', recorded)) :
    let items := attachments rebuild tc.status tc.output registered
    ∃ block, RecordsAll t ((t.blockId recorded.useIndex, block) ::
        (resultPart t tc recorded.resultIndex ++
          proposalPart t items recorded.proposalIndices)) t' ∧
      Sound t' ∧ t'.blocks[recorded.useIndex]? = some block ∧
      (describe tc (t.toolNameFor tc.toolCallId).isSome block).block (t.blockId recorded.useIndex)
        tc.toolCallId tc.status.word = block ∧
      (recorded.resultIndex = none ↔ tc.output = none ∨ tc.status = .started) ∧
      recorded.proposalIndices.length = items.length := by
  intro items
  obtain ⟨⟨used, i⟩, huse, heq⟩ := map_eq_some_iff.mp hrec
  obtain ⟨rfl, rfl⟩ := heq
  obtain ⟨block, hre, hus, hbl, hde⟩ := recordUse_records h huse
  have hite : ∀ item ∈ items, item.strField "type" = some "resource" := by
    intro item hit
    simp only [items, attachments] at hit
    split_ifs at hit
    · cases hit
    · obtain ⟨output, -, hli⟩ := bind_eq_some_iff.mp (mem_toList.mp hit)
      exact strField_lift hli
    · cases hit
    · exact hreg item hit
  have hres := recordResult_attaches hus tc
  obtain ⟨hpr, hle⟩ := recordProposals_attaches tc.toolCallId items _ true hres.sound hite
  have hids : ∀ j, used.blockId j = t.blockId j := hre.puts.blockId
  have hid' : ∀ j, (used.recordResult tc).1.blockId j = t.blockId j := by
    intro j
    rw [← hids, blockId, hres.chain.messageId]
    rfl
  have hall := hres.trans hpr
  simp only [resultPart, proposalPart, hids, hid'] at hall ⊢
  refine ⟨block, .cons h hre hall.chain, hall.sound, hall.uses i block tc.toolCallId hbl ?_,
    hde, ?_, hle⟩
  · rw [hids]
    exact hre.hasRole
  · unfold recordResult
    cases tc.output with
    | none => simp
    | some output =>
      split_ifs with hst
      · simp [hst]
      · cases used.toolResultIndex tc.toolCallId <;> simp [hst]

end Record

end Intentd.TurnRecorder
