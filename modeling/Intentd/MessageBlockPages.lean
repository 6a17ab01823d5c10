import Intentd.JsonTexts
import Intentd.PageWalks

/-!
# Pages of a message block

A block is served with its body cut to what the cap leaves beside the other fields. A string body is
paged by its own text, any other by its compact JSON. When nothing of the body fits, a stub of the
block is served instead, on the first page or on any later one.
-/
namespace Intentd.MessageBlockPages
open ByteTexts JsonValues JsonTexts ListPages PageWalks List

def messageBlockMaxBytes : ℕ := 480000
def messageBlockMinBytes : ℕ := 4096

structure MessageBlockPage where
  offset : Option ℕ
  maxBytes : Option ℕ

def MessageBlockPage.cap (page : MessageBlockPage) : ℕ :=
  page.maxBytes.elim messageBlockMaxBytes fun b =>
    min (max b messageBlockMinBytes) messageBlockMaxBytes

def bodyField (block : Json) : Option String :=
  match block.strField "type" with
  | some "text" | some "thinking" => some "text"
  | some "tool_use" => some "input"
  | some "tool_result" => some "output"
  | some "image" => some "data"
  | _ => none

def bodyText : Json → List Char
  | .str s => s.toList
  | other => jsonText other

def encodingOf : Json → String
  | .str _ => "text"
  | _ => "json"

structure PageResult where
  block : Json
  truncated : Bool
  field : Option String
  encoding : Option String
  totalBytes : Option ℕ
  nextOffset : Option ℕ

inductive Refusal
  | pastEnd (offset total : ℕ)
  | insideCharacter (offset : ℕ)
  | unsupported

def Refusal.message : Refusal → String
  | pastEnd offset total => s!"offset {offset} is past the end of the block body ({total} bytes)"
  | insideCharacter offset => s!"offset {offset} is not on a UTF-8 character boundary"
  | unsupported => "offset is not supported for this block"

/-- Keep a field of the block while the stub fits. -/
def stubField (block : Json) (cap : ℕ) (out : Fields) (key : String) : Fields :=
  match block.get key with
  | none => out
  | some v =>
    if cap < jsonLen (.obj (Fields.insert key v out)) then
      Fields.remove key (Fields.insert key v out)
    else Fields.insert key v out

def stub (block : Json) (cap : ℕ) : PageResult :=
  ⟨.obj (["id", "type"].foldl (stubField block cap) []), true, none, none, none, none⟩

def unpaged (block : Json) (offset cap : ℕ) : Except Refusal PageResult :=
  if offset ≠ 0 then .error .unsupported
  else if jsonLen block ≤ cap then .ok ⟨block, false, none, none, none, none⟩
  else .ok (stub block cap)

def pageImage (block : Json) (offset cap : ℕ) : Except Refusal PageResult :=
  match block.strField "data" with
  | none => unpaged block offset cap
  | some data =>
    let total := byteLen data.toList
    let cut :=
      ((block.remove "data").insert "dataTruncated" (.bool true)).insert "dataBytes"
        (.num (toString total))
    if offset ≠ 0 then .error .unsupported
    else if jsonLen block ≤ cap then .ok ⟨block, false, some "data", none, some total, none⟩
    else if jsonLen cut ≤ cap then .ok ⟨cut, true, some "data", none, some total, none⟩
    else .ok (stub cut cap)

/-- The characters that fit a number of bytes of a JSON string. -/
def fitting (room : ℕ) : List Char → List Char
  | [] => []
  | c :: text => if room < jsonEscapedLen c then [] else c :: fitting (room - jsonEscapedLen c) text

/-- The block without its body. -/
def emptied (block : Json) (field : String) : Json := block.insert field (.str "")

def pageBody (block : Json) (field : String) (body : Json) (offset cap : ℕ) :
    Except Refusal PageResult :=
  let text := bodyText body
  let total := byteLen text
  if total < offset then .error (.pastEnd offset total)
  else
    match splitAtByte offset text with
    | none => .error (.insideCharacter offset)
    | some (_, rest) =>
      if offset = 0 ∧ jsonLen block ≤ cap then .ok ⟨block, false, some field,
        some (encodingOf body), some total, none⟩
      else if cap < jsonLen (emptied block field) then .ok (stub (emptied block field) cap)
      else
        let piece := fitting (cap - jsonLen (emptied block field)) rest
        let stop := offset + byteLen piece
        if stop = offset ∧ offset < total then .ok (stub (emptied block field) cap)
        else .ok ⟨(emptied block field).insert field (.str (String.ofList piece)), true, some field,
          some (encodingOf body), some total, if stop < total then some stop else none⟩

def pageAt (block : Json) (offset cap : ℕ) : Except Refusal PageResult :=
  match bodyField block with
  | none => unpaged block offset cap
  | some field =>
    match block.get field with
    | none => unpaged block offset cap
    | some body =>
      if field = "data" then pageImage block offset cap else pageBody block field body offset cap

def pageMessageBlock (block : Json) (page : MessageBlockPage) : Except Refusal PageResult :=
  pageAt block (page.offset.getD 0) page.cap

def PageResult.piece (page : PageResult) : Option (List Char) := page.field.bind fun field =>
    (page.block.get field).map bodyText

def servePage (block : Json) (cap : ℕ) (_ offset : ℕ) : Option (PageResult × Option ℕ) :=
  (pageAt block offset cap).toOption.map fun page => (page, page.nextOffset)

def bodyLength (block : Json) : ℕ := ((bodyField block).bind block.get).elim 0 fun body =>
    (bodyText body).length

/-- Pieces of a text from an offset on, each starting where the last one ended. -/
inductive Rebuilds : List Char → ℕ → List PageResult → Prop
  | last {page : PageResult} {text : List Char} {offset : ℕ} (hpiece : page.piece = some text)
      (hnext : page.nextOffset = none) :
      Rebuilds text offset [page]
  | cons {page : PageResult} {piece rest : List Char} {offset : ℕ} {pages : List PageResult}
      (hpiece : page.piece = some piece) (hnext : page.nextOffset = some (offset + byteLen piece))
        (hrest : Rebuilds rest (offset + byteLen piece) pages) :
      Rebuilds (piece ++ rest) offset (page :: pages)

/-- Every character of the body fits what the block without it leaves of the cap. -/
def Roomy (block : Json) (field : String) (body : Json) (cap : ℕ) : Prop :=
  jsonLen block ≤ cap ∨ ∀ c ∈ bodyText body, jsonLen (emptied block field) + jsonEscapedLen c ≤ cap

/-! ## Sizes -/

section Sizes

variable {key : String} {v : Json} {fields : Fields} {block : Json} {cap : ℕ}

theorem remove_insert (h : Fields.get key fields = none) :
    Fields.remove key (Fields.insert key v fields) = fields := by
  rw [Fields.insert_of_get_none h, Fields.remove, filter_append, ← Fields.remove,
    Fields.remove_of_get h]
  simp

theorem stubField_fits (h : Fields.get key fields = none) (hf : jsonLen (.obj fields) ≤ cap) :
    jsonLen (.obj (stubField block cap fields key)) ≤ cap := by
  unfold stubField
  cases block.get key with
  | none => exact hf
  | some v =>
    simp only
    split_ifs with hl
    · rwa [remove_insert h]
    · exact Nat.le_of_not_lt hl

theorem stub_fits (block : Json) (hcap : 2 ≤ cap) : jsonLen (stub block cap).block ≤ cap := by
  have hid : Fields.get "type" (stubField block cap [] "id") = none := by
    unfold stubField
    cases block.get "id" with
    | none => rfl
    | some v => simp only; split_ifs <;> simp [Fields.insert, Fields.remove, Fields.get]
  exact stubField_fits hid (stubField_fits rfl hcap)

theorem jsonLen_insert_str (h : block.get key = some v) (s : String) :
    jsonLen (block.insert key (.str s)) = jsonLen (emptied block key) + escapedLen s.toList := by
  have hf : ∀ fields : Fields, 0 < fieldsLen (Fields.insert key (.str "") fields) ∧
      fieldsLen (Fields.insert key (.str s) fields) =
        fieldsLen (Fields.insert key (.str "") fields) + escapedLen s.toList := by
    intro fields
    induction fields with
    | nil => simp [Fields.insert, fieldsLen, jsonLen]; omega
    | cons field fields ih =>
      simp only [Fields.insert]
      split_ifs <;> simp [fieldsLen, jsonLen] <;> omega
  cases block with
  | obj fields =>
    have := hf fields
    simp only [emptied, Json.insert, jsonLen]
    omega
  | _ => cases h

theorem fitting_spec (room : ℕ) (text : List Char) :
    fitting room text <+: text ∧ escapedLen (fitting room text) ≤ room ∧
      (fitting room text = [] → text = [] ∨ ∃ c ∈ text, room < jsonEscapedLen c) := by
  induction text generalizing room with
  | nil => simp [fitting]
  | cons c text ih =>
    rw [fitting]
    split_ifs with hl
    · exact ⟨List.nil_prefix, Nat.zero_le _, fun _ => .inr ⟨c, mem_cons_self, hl⟩⟩
    · obtain ⟨hpre, hle, -⟩ := ih (room - jsonEscapedLen c)
      refine ⟨(prefix_cons_inj c).mpr hpre, ?_, nofun⟩
      rw [escapedLen_cons]
      omega

end Sizes

/-! ## The pages -/

section Pages

variable {block body : Json} {field : String} {cap offset : ℕ} {before rest : List Char}

/-- A page has the rest of the body, some of it, or nothing. -/
inductive Served (block : Json) (field : String) (body : Json) (cap offset : ℕ) (rest : List Char)
    (page : PageResult) : Prop
  | whole (hpiece : page.piece = some rest) (hnext : page.nextOffset = none)
  | cut (piece later : List Char) (hrest : rest = piece ++ later) (hne : piece ≠ [])
      (hlater : later ≠ [])
      (hlarge : cap < jsonLen block) (hpiece : page.piece = some piece) (hnext : page.nextOffset =
        some (offset + byteLen piece))
  | none (hpiece : page.piece = none) (hnext : page.nextOffset = none)
      (hroomy : Roomy block field body cap → rest = [])

theorem pageBody_served (hbo : block.get field = some body) (hcap : 2 ≤ cap)
    (hte : bodyText body = before ++ rest)
    (hof : byteLen before = offset) (hlar : offset = 0 ∨ cap < jsonLen block) :
    ∃ page, pageBody block field body offset cap = .ok page ∧ jsonLen page.block ≤ cap ∧
      Served block field body cap offset rest page := by
  have hto : byteLen (bodyText body) = offset + byteLen rest := by rw [hte, byteLen_append, hof]
  have hsp : splitAtByte offset (bodyText body) = some (before, rest) :=
    splitAtByte_eq_some.mpr ⟨hte, hof⟩
  obtain ⟨⟨later, hla⟩, hsi, hnil⟩ := fitting_spec (cap - jsonLen (emptied block field)) rest
  unfold pageBody
  simp only [hsp, hto]
  generalize fitting (cap - jsonLen (emptied block field)) rest = piece at *
  rw [if_neg (by omega)]
  by_cases hwh : offset = 0 ∧ jsonLen block ≤ cap
  · rw [if_pos hwh]
    have hbe := byteLen_eq_zero.mp (hof.trans hwh.1)
    exact ⟨_, rfl, hwh.2, .whole (by simp [PageResult.piece, hbo, hte, hbe]) rfl⟩
  have hlar : cap < jsonLen block := by omega
  have hro : Roomy block field body cap → ∀ c ∈ rest,
      jsonLen (emptied block field) + jsonEscapedLen c ≤ cap := fun h c hc =>
    h.resolve_left (Nat.not_le_of_lt hlar) c (hte ▸ mem_append_right _ hc)
  rw [if_neg hwh]
  by_cases hov : cap < jsonLen (emptied block field)
  · rw [if_pos hov]
    refine ⟨_, rfl, stub_fits _ hcap, .none rfl rfl fun h =>
      eq_nil_iff_forall_not_mem.mpr fun c hc => ?_⟩
    have := hro h c hc
    omega
  have hget : (emptied block field).get field = some (.str "") := Json.get_insert_of_get hbo
  have hfi : jsonLen ((emptied block field).insert field (.str (String.ofList piece))) ≤ cap := by
    rw [jsonLen_insert_str hget, emptied, Json.insert_of_get hget, String.toList_ofList]
    omega
  have hpi : (((emptied block field).insert field (.str (String.ofList piece))).get field).map
      bodyText = some piece := by
    rw [Json.get_insert_of_get hget]
    simp [bodyText]
  have hlen : byteLen rest = byteLen piece + byteLen later := by rw [← hla, byteLen_append]
  rw [if_neg hov]
  split_ifs with hst hmo
  · refine ⟨_, rfl, stub_fits _ hcap, .none rfl rfl fun h => ?_⟩
    refine (hnil (byteLen_eq_zero.mp (by omega))).resolve_right fun ⟨c, hc, hroo⟩ => ?_
    have := hro h c hc
    omega
  · have hne : piece ≠ [] := fun h => by simp [h] at hst hmo; omega
    have hl : later ≠ [] := fun h => by simp [h] at hlen; omega
    exact ⟨_, rfl, hfi, .cut piece later hla.symm hne hl hlar hpi rfl⟩
  · have hl : later = [] := byteLen_eq_zero.mp (by omega)
    rw [hl, append_nil] at hla
    exact ⟨_, rfl, hfi, .whole (hla ▸ hpi) rfl⟩

theorem unpaged_served (block : Json) (hcap : 2 ≤ cap) :
    ∃ page, unpaged block 0 cap = .ok page ∧ jsonLen page.block ≤ cap ∧ page.piece = none ∧
      page.nextOffset = none := by
  unfold unpaged
  rw [if_neg (by simp)]
  split_ifs with hf
  · exact ⟨_, rfl, hf, rfl, rfl⟩
  · exact ⟨_, rfl, stub_fits _ hcap, rfl, rfl⟩

theorem pageImage_served (hb : block.get "data" = some body) (hcap : 2 ≤ cap) :
    ∃ page, pageImage block 0 cap = .ok page ∧ jsonLen page.block ≤ cap ∧ page.nextOffset = none ∧
      ∀ text ∈ page.piece, text = bodyText body := by
  unfold pageImage
  cases hd : block.strField "data" with
  | none =>
    obtain ⟨page, hpa, hf, hp, hn⟩ := unpaged_served block hcap
    exact ⟨page, hpa, hf, hn, by simp [hp]⟩
  | some data =>
    simp only [ne_eq, not_true_eq_false, if_false]
    split_ifs with hf hcut
    · exact ⟨_, rfl, hf, rfl, by simp [PageResult.piece, hb]⟩
    · have hno : (block.remove "data").get "data" = none := by
        cases block with
        | obj fields => exact Fields.get_eq_none.mpr (by simp [Fields.remove])
        | _ => rfl
      refine ⟨_, rfl, hcut, rfl, ?_⟩
      simp [PageResult.piece, Json.get_insert_ne, hno]
    · exact ⟨_, rfl, stub_fits _ hcap, rfl, by simp [PageResult.piece, stub]⟩

theorem one_page (hcap : 2 ≤ cap) (h : ∀ field ∈ bodyField block, block.get field = none ∨
    field = "data") :
    ∃ page, pageAt block 0 cap = .ok page ∧ jsonLen page.block ≤ cap ∧ page.nextOffset = none ∧
      ∀ field ∈ bodyField block, ∀ body ∈ block.get field, ∀ text ∈ page.piece,
        text = bodyText body := by
  obtain ⟨page, hp, hf, hpi, hn⟩ := unpaged_served block hcap
  unfold pageAt
  cases hfi : bodyField block with
  | none => exact ⟨page, hp, hf, hn, nofun⟩
  | some field =>
    cases hb : block.get field with
    | none => exact ⟨page, by simpa [hb] using hp, hf, hn, by simp [hpi]⟩
    | some body =>
      obtain rfl : field = "data" := (h field hfi).resolve_left (by simp [hb])
      obtain ⟨page, hp, hf, hn, hpi⟩ := pageImage_served hb hcap
      exact ⟨page, by simpa [hb] using hp, hf, hn, by simpa [hb] using hpi⟩

theorem body_pages (hfie : bodyField block = some field) (hbo : block.get field = some body)
    (hda : field ≠ "data") (hcap : 2 ≤ cap) :
      ∃ pages, follow (servePage block cap) ((bodyText body).length + 1) 0 0 = some pages ∧
      (∀ page ∈ pages, jsonLen page.block ≤ cap) ∧ (Roomy block field body cap →
        (bodyText body ≠ [] ∨ ∀ page ∈ pages.head?, page.piece ≠ none) →
          Rebuilds (bodyText body) 0 pages) := by
  refine follow_ends_with (I := fun _ offset g => bodyText body = g.1 ++ g.2 ∧
    byteLen g.1 = offset ∧ (offset = 0 ∨ cap < jsonLen block))
    (Q := fun _ g pages => (∀ page ∈ pages, jsonLen page.block ≤ cap) ∧
      (Roomy block field body cap →
      (g.2 ≠ [] ∨ ∀ page ∈ pages.head?, page.piece ≠ none) → Rebuilds g.2 (byteLen g.1) pages))
    (fun g : List Char × List Char => g.2.length) ?_ (g := ([], bodyText body)) ⟨rfl, rfl, .inl rfl⟩
      (Nat.lt_succ_self _)
  rintro n offset ⟨before, rest⟩ ⟨hte, hof, hla⟩
  obtain ⟨page, hpa, hfi, hse⟩ := pageBody_served hbo hcap hte hof hla
  refine ⟨page, page.nextOffset, by simp [servePage, pageAt, hfie, hbo, hda, hpa, Except.toOption],
    ?_, ?_⟩
  · intro hnex
    refine ⟨by simpa using hfi, fun hro hfir => ?_⟩
    cases hse with
    | whole hpi _ => exact .last hpi hnex
    | cut _ _ _ _ _ _ _ hmo => cases hnex.symm.trans hmo
    | none hpi _ hnil => exact absurd hpi (hfir.resolve_left (not_not_intro (hnil hro)) page rfl)
  · intro offset' hnex
    cases hse with
    | whole _ hno | none _ hno _ => cases hnex.symm.trans hno
    | cut piece later hres hne hlat hov hpi hmo =>
      cases hnex.symm.trans hmo
      subst hres hof
      refine ⟨(before ++ piece, later), ⟨by simp [hte], by simp, .inr hov⟩, ?_, ?_⟩
      · simpa using length_pos_of_ne_nil hne
      · rintro pages ⟨hall, hre⟩
        refine ⟨forall_mem_cons.mpr ⟨hfi, hall⟩, fun hro _ => .cons hpi hmo ?_⟩
        simpa using hre hro (.inl hlat)

end Pages

/-- Every page fits the cap and the walk ends. Where no character of the body is longer than what is
left beside the other fields, the pieces are the body if the first page has one. -/
theorem message_block_pages (block : Json) (cap : ℕ) (hcap : messageBlockMinBytes ≤ cap) :
    ∃ pages, follow (servePage block cap) (bodyLength block + 1) 0 0 = some pages ∧
      (∀ page ∈ pages, jsonLen page.block ≤ cap) ∧
      ∀ field body, bodyField block = some field → block.get field = some body →
        Roomy block field body cap →
        (∀ page ∈ pages.head?, page.piece ≠ none) → Rebuilds (bodyText body) 0 pages := by
  have hcap : 2 ≤ cap := Nat.le_trans (by decide) hcap
  by_cases hone : ∀ field ∈ bodyField block, block.get field = none ∨ field = "data"
  · obtain ⟨page, hpag, hfit, hne, hpi⟩ := one_page hcap hone
    refine ⟨[page], by simp [follow, servePage, hpag, Except.toOption, hne], by simpa using hfit,
      ?_⟩
    intro field body hfi hbo _ hfir
    obtain ⟨text, hte⟩ := Option.ne_none_iff_exists'.mp (hfir page rfl)
    exact .last (hpi field hfi body hbo text hte ▸ hte) hne
  · simp only [not_forall, not_or] at hone
    obtain ⟨field, hfi, hget, hda⟩ := hone
    obtain ⟨body, hbo⟩ := Option.ne_none_iff_exists'.mp hget
    obtain ⟨pages, hpa, hfit, hre⟩ := body_pages hfi hbo hda hcap
    have hlen : bodyLength block = (bodyText body).length := by
      rw [bodyLength, Option.mem_def.mp hfi, Option.bind_some, hbo]; rfl
    refine ⟨pages, hlen ▸ hpa, hfit, ?_⟩
    rintro _ _ hfi' hbo' hro hfir
    cases hfi.symm.trans hfi'
    cases hbo.symm.trans hbo'
    exact hre hro (.inr hfir)

/-- A block that leaves one byte for its body. -/
def crowded (text : String) : Json :=
  .obj [("type", .str "text"), ("text", .str text), ("extra", .arr (replicate 812 .null))]

theorem crowded_pages_stop :
    (follow (servePage (crowded "a\n") 4096) 2 0 0).map (·.map PageResult.piece) =
      some [some ['a'], none] ∧ ((crowded "a\n").get "text").map bodyText = some ['a', '\n'] := by
  decide +kernel

theorem message_block_pages_two :
    ∃ pages, follow (servePage (crowded "ab") 4096) 3 0 0 = some pages ∧ pages.length = 2 ∧
    Rebuilds ['a', 'b'] 0 pages := by
  obtain ⟨pages, hpa, -, hr⟩ := message_block_pages (crowded "ab") 4096 (by decide)
  have hpi : (follow (servePage (crowded "ab") 4096) 3 0 0).map (·.map PageResult.piece) =
      some [some ['a'], some ['b']] := by
    decide +kernel
  rw [show 3 = bodyLength (crowded "ab") + 1 by decide +kernel] at hpi ⊢
  rw [hpa] at hpi
  have hmap := Option.some.inj hpi
  refine ⟨pages, hpa, by simpa using congrArg length hmap, ?_⟩
  have hro : (bodyText (.str "ab")).all fun c => jsonLen (emptied (crowded "ab") "text") +
      jsonEscapedLen c ≤ 4096 := by
    decide +kernel
  refine hr "text" (.str "ab") (by decide +kernel) ?_ (.inr fun c hc =>
    of_decide_eq_true (all_eq_true.mp hro c hc)) ?_
  · rw [crowded, Json.get, Fields.get, if_neg (by decide), Fields.get, if_pos rfl]
  intro page hp hn
  have hh := congrArg head? hmap
  rw [head?_map, hp] at hh
  simp [hn] at hh

end Intentd.MessageBlockPages
