import Intentd.JsonValues

/-!
# Blocks of tool calls

The one place that makes the blocks of a tool call, used by the recorder of a turn and by the
live stream: the `tool_use` block, whose input carries the title of the call, and the
standalone block of a proposal, which is an item of the output or of a registered attachment
under a block id.

A proposal that a provider collapsed into a text is rebuilt from it by a parser that is a
parameter here; the recorder and the stream call the same one.
-/
namespace Intentd.ToolBlocks
open JsonValues

def attachAcpTitle (input : Json) (title : String) : Json :=
  match input with
  | .null => if title = "" then .obj [] else .obj [("_acpTitle", .str title)]
  | .obj fields =>
    if title = "" then .obj fields else .obj (Fields.insert "_acpTitle" (.str title) fields)
  | other => other

def buildToolUseBlock (blockId name title : String) (input : Json)
    (toolCallId toolKind status : String) : Json :=
  .obj [("type", .str "tool_use"), ("id", .str blockId), ("name", .str name),
    ("input", attachAcpTitle input title), ("toolCallId", .str toolCallId),
    ("metadata", .obj [("toolKind", .str toolKind), ("status", .str status)])]

def toolResultBlock (blockId toolCallId : String) (output : Json) (isError : Bool) : Json :=
  .obj [("type", .str "tool_result"), ("id", .str blockId), ("tool_use_id", .str toolCallId),
    ("output", output), ("is_error", .bool isError)]

def proposalResourceMime : String := "application/vnd.intent.proposal+json"

structure Resource where
  uri : String
  name : String
  mimeType : String
  text : String

def Resource.item (r : Resource) : Json :=
  .obj [("type", .str "resource"),
    ("resource", .obj [("uri", .str r.uri), ("name", .str r.name), ("mimeType", .str r.mimeType),
      ("text", .str r.text)])]

def isProposalResource (item : Json) : Bool :=
  item.strField "type" = some "resource" &&
    match item.get "resource" with
    | some r => r.strField "mimeType" = some proposalResourceMime && (r.strField "text").isSome
    | none => false

def findProposalResource (output : Json) : Option Json :=
  output.asArr.bind (·.find? isProposalResource)

def liftProposalResource (rebuild : Json → Option Resource) (output : Json) : Option Json :=
  (findProposalResource output).or ((rebuild output).map Resource.item)

def buildProposalResourceBlock (blockId : String) (item : Json) : Json :=
  item.insert "id" (.str blockId)

variable {input : Json} {title : String}

theorem attachAcpTitle_of_title (hn : input ≠ .null)
    (h : title = "" ∨ input.strField "_acpTitle" = some title ∨ input.asObj = none) :
    attachAcpTitle input title = input := by
  cases input with
  | null => exact absurd rfl hn
  | obj fields =>
    rw [attachAcpTitle]
    split_ifs with he
    · rfl
    · rcases h with h | h | h
      · exact absurd h he
      · rw [Fields.insert_of_get (Json.strField_eq_some.mp h)]
      · cases h
  | _ => rfl

theorem attachAcpTitle_ne_null (input : Json) (title : String) :
    attachAcpTitle input title ≠ .null := by
  cases input with
  | null | obj fields =>
    rw [attachAcpTitle]
    split_ifs <;> simp
  | _ => simp [attachAcpTitle]

theorem attachAcpTitle_again (hn : input ≠ .null)
    (h : title = "" ∨ (input.strField "_acpTitle").isSome ∨ input.asObj = none) :
    attachAcpTitle input ((input.strField "_acpTitle").getD title) = input := by
  apply attachAcpTitle_of_title hn
  cases ht : input.strField "_acpTitle" with
  | some own => exact .inr (.inl rfl)
  | none =>
    rw [ht] at h
    rcases h with h | h | h
    · exact .inl h
    · cases h
    · exact .inr (.inr h)

theorem attachAcpTitle_carries {p : Prop} (hn : input ≠ .null) (h : title = "" → p) :
    p ∨ ((attachAcpTitle input title).strField "_acpTitle").isSome ∨
      (attachAcpTitle input title).asObj = none := by
  cases input with
  | null => exact absurd rfl hn
  | obj fields =>
    by_cases he : title = ""
    · exact .inl (h he)
    · rw [attachAcpTitle, if_neg he, Json.strField, Json.get, Fields.get_insert_self]
      exact .inr (.inl rfl)
  | _ => exact .inr (.inr rfl)

theorem strField_proposalBlock {item : Json} {key : String} (blockId : String) (hkey : key ≠ "id") :
    (buildProposalResourceBlock blockId item).strField key = item.strField key := by
  rw [buildProposalResourceBlock, Json.strField, Json.get_insert_ne hkey]
  rfl

theorem strField_lift {rebuild : Json → Option Resource} {output item : Json}
    (h : liftProposalResource rebuild output = some item) :
    item.strField "type" = some "resource" := by
  rcases Option.or_eq_some_iff.mp h with hf | ⟨-, hr⟩
  · obtain ⟨items, -, hf⟩ := Option.bind_eq_some_iff.mp hf
    have hit := List.find?_some hf
    rw [isProposalResource, Bool.and_eq_true] at hit
    exact of_decide_eq_true hit.1
  · obtain ⟨r, -, rfl⟩ := Option.map_eq_some_iff.mp hr
    rfl

end Intentd.ToolBlocks
