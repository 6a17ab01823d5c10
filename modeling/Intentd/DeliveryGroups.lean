import Intentd.QueuedMessages

/-!
# What a queue entry sends to the provider

An entry has its text as one content with one text to prepend and, once a turn it was part of
has failed, as the groups that turn was made of. Saved groups are what is sent. A merge joins the
contents and keeps the groups of the older entry, so that the text of the newer one is not sent.
-/
namespace Intentd.QueuedMessages
open JsonValues List

def texts (isPrepend : Bool) (groups : List QueuedDeliveryGroup) : List String :=
  (groups.filter (·.isPrepend = isPrepend)).map (·.content)

/-- The parts are in a text, one after the other. -/
def InOrder (text : String) : List String → Prop
  | [] => True
  | part :: parts => ∃ before after, text = before ++ part ++ after ∧ InOrder after parts

section Parts

variable {text part rest : String} {texts parts more : List String}

theorem InOrder.append_left (h : InOrder text parts) (before : String) :
    InOrder (before ++ text) parts := by
  cases parts with
  | nil => trivial
  | cons part parts =>
    obtain ⟨first, after, rfl, hr⟩ := h
    exact ⟨before ++ first, after, by simp [String.append_assoc], hr⟩

theorem InOrder.of_suffix (h : InOrder rest parts) (hs : rest.toList <:+ text.toList) :
    InOrder text parts := by
  obtain ⟨front, hf⟩ := hs
  have htext : text = String.ofList front ++ rest := by
    rw [← String.toList_inj, String.toList_append, String.toList_ofList, hf]
  rw [htext]
  exact h.append_left _

theorem InOrder.of_cons (h : InOrder text (part :: parts)) : InOrder text parts := by
  obtain ⟨before, after, rfl, hr⟩ := h
  exact hr.append_left _

theorem inOrder_empty : InOrder "" parts ↔ ∀ part ∈ parts, part = "" := by
  induction parts with
  | nil => simp [InOrder]
  | cons part parts ih =>
    rw [forall_mem_cons]
    refine ⟨fun h => ?_, fun ⟨hp, h⟩ => ⟨"", "", by simp [hp], ih.mpr h⟩⟩
    obtain ⟨before, after, ht, -⟩ := id h
    have hl := congrArg String.toList ht
    simp only [String.toList_append, String.toList_empty, nil_eq, append_eq_nil_iff] at hl
    exact ⟨by simpa using hl.1.2, ih.mp h.of_cons⟩

theorem InOrder.append_empty (h : InOrder text parts) (hm : ∀ part ∈ more, part = "") :
    InOrder text (parts ++ more) := by
  induction parts generalizing text with
  | nil => exact (inOrder_empty.mpr hm).of_suffix nil_suffix
  | cons part parts ih =>
    obtain ⟨before, after, rfl, hr⟩ := h
    exact ⟨before, after, rfl, ih hr⟩

theorem InOrder.empty_append (h : InOrder text parts) (hm : ∀ part ∈ more, part = "") :
    InOrder text (more ++ parts) := by
  induction more with
  | nil => exact h
  | cons part more ih =>
    obtain ⟨rfl, hr⟩ := forall_mem_cons.mp hm
    exact ⟨"", text, by simp, ih hr⟩

/-- The parts are in the texts, one after the other and each within one text. -/
def Contains : List String → List String → Prop
  | [], parts => ∀ part ∈ parts, part = ""
  | text :: texts, parts =>
    ∃ here later, parts = here ++ later ∧ InOrder text here ∧ Contains texts later

theorem Contains.of_cons (h : Contains texts (part :: parts)) : Contains texts parts := by
  induction texts with
  | nil => exact fun p hp => h p (mem_cons_of_mem _ hp)
  | cons text texts ih =>
    obtain ⟨here, later, hp, hh, hl⟩ := h
    cases here with
    | nil =>
      rw [nil_append] at hp
      exact ⟨[], parts, rfl, trivial, ih (hp ▸ hl)⟩
    | cons _ here =>
      obtain ⟨rfl, rfl⟩ := cons_eq_cons.mp hp
      exact ⟨here, later, rfl, hh.of_cons, hl⟩

theorem Contains.empty_append (h : Contains texts parts) (hm : ∀ part ∈ more, part = "") :
    Contains texts (more ++ parts) := by
  cases texts with
  | nil => exact fun p hp => (mem_append.mp hp).elim (hm p) (h p)
  | cons text texts =>
    obtain ⟨here, later, rfl, hh, hl⟩ := h
    exact ⟨more ++ here, later, (append_assoc ..).symm, hh.empty_append hm, hl⟩

end Parts

variable {m e f : QueuedMessage} {saved prepended : List QueuedDeliveryGroup}

/-- What a merge puts behind the texts of the older entry. -/
def added (isPrepend : Bool) (e f : QueuedMessage) : String :=
  if isPrepend then
    if e.prependDeliveryGroups.isSome then "" else
      match e.prependContent, f.prependContent with
      | some _, some content => "\n\n" ++ content
      | _, content => content.getD ""
  else if e.deliveryGroups.isSome then "" else "\n\n" ++ f.content

def pending (text : String) (text_ne : text ≠ "") (order : ℕ) : QueuedMessage :=
  let r : Request := {
    id := text
    id_ne := text_ne
    content := text
    messageMetadata := some (.obj [("fromPrincipalId", .str "p")])
    prepend := { content := some "before" } }
  r.entry order

end Intentd.QueuedMessages
