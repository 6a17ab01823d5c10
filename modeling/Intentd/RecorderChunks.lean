import Intentd.RecorderBlocks
import Mathlib.Data.List.Nodup

/-!
# Chunks, media and places

A chunk either goes on with the open block or closes it and opens the next, and an open block
keeps its place when it is closed. The references that a chunk completes are probed; what is
resolved joins the media of the block and is what the event carries. An empty chunk completes
nothing, because the text was scanned before.

No update moves a block: what is stored at a place stays there, of the same type and the same
call, and an open text only grows.
-/
namespace Intentd.TurnRecorder
open JsonValues ImageReferences List Transcript

section Media

variable {key src : String} {d : Dimensions}

theorem get_fields_insert (media : Media) : Fields.get key (Media.insert src d media).fields =
      if key = src then some (dimensionsJson d) else Fields.get key media.fields := by
  induction media with
  | nil => simp [Media.insert, Media.fields, Fields.get, eq_comm]
  | cons entry rest ih =>
    have hc : ∀ (e : String × Dimensions) (rest : Media),
        Fields.get key (Media.fields (e :: rest)) =
        if e.1 = key then some (dimensionsJson e.2) else Fields.get key rest.fields :=
          fun _ _ => rfl
    rw [Media.insert]
    by_cases hkey : entry.1 = src
    · rw [if_pos hkey, hc, hc, hkey]
      by_cases h : key = src
      · simp [h]
      · simp [h, Ne.symm h]
    · rw [if_neg hkey]
      by_cases hlt : src < entry.1
      · rw [if_pos hlt, hc]
        simp [eq_comm]
      · rw [if_neg hlt, hc, hc, ih]
        by_cases h : key = src
        · subst h
          simp [hkey]
        · simp [h]

theorem get_fields_of_not_any (media : Media) (h : media.any (fun entry => entry.1 = src) = false) :
    Fields.get src media.fields = none := by
  induction media with
  | nil => rfl
  | cons entry rest ih =>
    simp only [any_cons, Bool.or_eq_false_iff, decide_eq_false_iff_not] at h
    exact (if_neg h.1).trans (ih h.2)

/-- What probing references does: it only touches the cache, the count and the media, the media
are what they were with what was found over it, and what had an entry is not found again. -/
structure Probed (t : Transcript) (found : Fields) (found' : Fields) (t' : Transcript) : Prop where
  frame : t' = { t with
    probeCache := t'.probeCache, pendingMedia := t'.pendingMedia, mediaRefsSeen :=
      t'.mediaRefsSeen }
  media : ∀ base : String → Option Json,
    (∀ key, Fields.get key t.pendingMedia.fields = (Fields.get key found).or (base key)) →
    ∀ key, Fields.get key t'.pendingMedia.fields = (Fields.get key found').or (base key)
  keys : (found.map Prod.fst).Nodup → (found'.map Prod.fst).Nodup
  nothing : found' = [] → t'.pendingMedia = t.pendingMedia ∧ found = []
  fresh : ∀ key, Fields.get key t.pendingMedia.fields ≠ none → Fields.get key found = none →
    Fields.get key found' = none

theorem keys_insert (value : Json) (fields : Fields) :
    (Fields.insert key value fields).map Prod.fst =
      if key ∈ fields.map Prod.fst then fields.map Prod.fst else fields.map Prod.fst ++ [key] := by
  induction fields with
  | nil => simp [Fields.insert]
  | cons field rest ih =>
    rw [Fields.insert]
    by_cases hk : field.1 = key
    · simp [hk]
    · have hne : ¬ key = field.1 := Ne.symm hk
      simp only [hk, if_false, map_cons, mem_cons, hne, false_or, ih]
      split_ifs <;> rfl

theorem insert_keys_nodup (value : Json) {fields : Fields} (h : (fields.map Prod.fst).Nodup) :
    ((Fields.insert key value fields).map Prod.fst).Nodup := by
  rw [keys_insert]
  split_ifs with hmem
  · exact h
  · rw [← concat_eq_append]
    exact h.concat hmem

theorem insert_ne_nil (value : Json) (fields : Fields) : Fields.insert key value fields ≠ [] := by
  cases fields with
  | nil => simp [Fields.insert]
  | cons field rest =>
    rw [Fields.insert]
    split_ifs <;> simp

theorem probeRefs_probed (files : String → Option Dimensions) (refs : List String) :
    ∀ (t : Transcript) (found : Fields), Probed t found (probeRefs files refs t found).1
      (probeRefs files refs t found).2 := by
  induction refs with
  | nil => exact fun t found => ⟨rfl, fun _ h => h, fun h => h, fun h => ⟨rfl, h⟩, fun _ _ h => h⟩
  | cons src refs ih =>
    intro t found
    rw [probeRefs]
    split_ifs with hs hkn
    · exact ⟨rfl, fun _ h => h, fun h => h, fun h => ⟨rfl, h⟩, fun _ _ h => h⟩
    · have hr := ih { t with mediaRefsSeen := t.mediaRefsSeen + 1 } found
      exact { hr with }
    · cases (t.probeCache src).getD (files src) with
      | none =>
        have hr := ih { t with
          mediaRefsSeen := t.mediaRefsSeen + 1
          probeCache := Function.update t.probeCache src (some none) } found
        exact { hr with }
      | some d =>
        have hr := ih { t with
          mediaRefsSeen := t.mediaRefsSeen + 1
          probeCache := Function.update t.probeCache src (some (some d))
          pendingMedia := t.pendingMedia.insert src d } (Fields.insert src (dimensionsJson d) found)
        refine ⟨hr.frame, fun base hb => hr.media base fun key => ?_,
          fun hk => hr.keys (insert_keys_nodup _ hk), fun hnil => ?_, fun key hp hf => ?_⟩
        · rw [get_fields_insert, Fields.get_insert]
          split_ifs
          · rfl
          · exact hb key
        · exact absurd (hr.nothing hnil).2 (insert_ne_nil _ _)
        · have hne : key ≠ src := by
            rintro rfl
            exact hp (get_fields_of_not_any _ (Bool.eq_false_iff.mpr hkn))
          refine hr.fresh key ?_ ?_
          · rwa [get_fields_insert, if_neg hne]
          · rwa [Fields.get_insert_ne hne]

end Media

variable {t t' : Transcript}

/-- The transcript that a chunk is appended to. -/
def opened (t : Transcript) (thought : Bool) : Transcript :=
  if thought = t.pendingThought then t else { t.flushText with pendingThought := thought }

theorem pushChunk_eq (t : Transcript) (chunk : String) (thought : Bool) :
    t.pushChunk chunk thought =
      { opened t thought with text := (opened t thought).text ++ chunk } := rfl

theorem opened_pendingThought (t : Transcript) (thought : Bool) :
    (opened t thought).pendingThought = thought := by
  unfold opened
  split_ifs with h
  · exact h.symm
  · rfl

theorem opened_snapshotBlocks (t : Transcript) (thought : Bool) :
    (opened t thought).snapshotBlocks = t.snapshotBlocks := by
  unfold opened
  split_ifs <;> rfl

theorem opened_sound (h : Sound t) (thought : Bool) : Sound (opened t thought) := by
  unfold opened
  split_ifs
  · exact h
  · refine ⟨fun role i hi => ?_, fun i block hget => ?_, fun _ => rfl, fun _ _ _ => rfl⟩
    · obtain ⟨block, hb, hr⟩ := h.roles role i hi
      exact ⟨block, getElem?_blocks_le t hb, hr⟩
    · exact h.snapshot_ids hget

structure Chunked (t : Transcript) (chunk : String) (found : Option Fields) (t' : Transcript) :
    Prop where
  frame : t' = { t with
    text := t.text ++ chunk, probeCache := t'.probeCache, pendingMedia := t'.pendingMedia
    mediaScanPos := t'.mediaScanPos, mediaRefsSeen := t'.mediaRefsSeen }
  media : ∀ key, Fields.get key t'.pendingMedia.fields =
    (Fields.get key (found.getD [])).or (Fields.get key t.pendingMedia.fields)
  keys : ((found.getD []).map Prod.fst).Nodup
  fresh : ∀ key, Fields.get key t.pendingMedia.fields ≠ none → Fields.get key (found.getD []) = none
  nothing : found = none → t'.pendingMedia = t.pendingMedia
  something : ∀ media, found = some media → media ≠ []
  silent : chunk = "" → found = none
  sound : Sound t'

theorem Sound.of_frame (h : Sound t) (hb : t'.blocks = t.blocks)
    (hm : t'.messageId = t.messageId) (hin : ∀ role, t'.index role = t.index role)
    (he : t'.text = "" → t'.pendingMedia = [])
    (hs : t'.probe = true → t'.pendingThought = false → t'.mediaRefsSeen < maxImageRefsPerBlock →
      scanImageRefs t'.text t'.mediaScanPos = ([], t'.mediaScanPos)) : Sound t' := by
  have hid : ∀ i, t'.blockId i = t.blockId i := by
    intro i
    rw [blockId, hm]
    rfl
  refine ⟨fun role i hi => ?_, fun i block hget => ?_, he, hs⟩
  · rw [hin] at hi
    rw [hb, hid]
    exact h.roles role i hi
  · rw [hb] at hget
    rw [hid]
    exact h.ids i block hget

theorem probeNewImages_chunked (h : Sound t) (chunk : String) (files : String → Option Dimensions) :
    let pushed := { t with text := t.text ++ chunk }
    Chunked t chunk (pushed.probeNewImages files).1 (pushed.probeNewImages files).2 := by
  intro pushed
  unfold probeNewImages
  split_ifs with hsk
  · refine ⟨rfl, fun key => rfl, nodup_nil, fun _ _ => rfl, fun _ => rfl,
      fun _ hso => (Option.some_ne_none _ hso.symm).elim,
      fun _ => rfl, h.of_frame rfl rfl (fun role => by cases role <;> rfl) ?_ ?_⟩
    · intro hte
      exact h.empty (String.append_eq_empty_iff.mp hte).1
    · intro hpro hth hse
      simp only [pushed, Bool.or_eq_true, Bool.not_eq_true', decide_eq_true_eq] at hsk
      simp only [pushed] at hpro hth hse
      simp [hpro, hth] at hsk
      omega
  · simp only [Bool.or_eq_true, Bool.not_eq_true', decide_eq_true_eq, not_or, Bool.not_eq_false,
      Bool.not_eq_true, Nat.not_le] at hsk
    obtain ⟨⟨hpro, hth⟩, hse⟩ := hsk
    generalize hsc : scanImageRefs pushed.text pushed.mediaScanPos = scanned
    have hpr := probeRefs_probed files scanned.1 { pushed with mediaScanPos := scanned.2 } []
    generalize hre : probeRefs files scanned.1
      { pushed with mediaScanPos := scanned.2 } [] = probed at hpr
    dsimp only at hre ⊢
    rw [hre]
    have hfo : (if probed.1.isEmpty then none else some probed.1).getD [] = probed.1 := by
      split_ifs with hem
      · exact (isEmpty_iff.mp hem).symm
      · rfl
    -- An empty chunk leaves the text as it was scanned.
    have hsi : chunk = "" → probed.1 = [] := by
      rintro rfl
      have hsa : scanned.1 = [] := by
        rw [← hsc]
        simp only [pushed, String.append_empty]
        rw [h.scanned hpro hth hse]
      rw [← hre, hsa]
      rfl
    have hpos : probed.2.mediaScanPos = scanned.2 := by rw [hpr.frame]
    refine ⟨?_, fun key => ?_, ?_, fun key hp => ?_, fun hno => ?_, fun media hso => ?_,
      fun hch => ?_, ?_⟩
    · rw [hpos]
      exact hpr.frame
    · rw [hfo]
      exact hpr.media _ (fun key => rfl) key
    · rw [hfo]
      exact hpr.keys nodup_nil
    · rw [hfo]
      exact hpr.fresh key hp rfl
    · rw [hno] at hfo
      exact (hpr.nothing hfo.symm).1
    · split_ifs at hso with hem
      cases hso
      exact fun hnil => hem (isEmpty_iff.mpr hnil)
    · rw [hsi hch]
      rfl
    · rw [hpr.frame]
      refine h.of_frame rfl rfl (fun role => by cases role <;> rfl) (fun hte => ?_) fun _ _ _ => ?_
      · obtain ⟨hte, hch⟩ := String.append_eq_empty_iff.mp hte
        exact (hpr.nothing (hsi hch)).1.trans (h.empty hte)
      · have hag := scanImageRefs_again pushed.text pushed.mediaScanPos
        rwa [hsc] at hag

variable {role : Role}

section Places

/-- A block that is stored where another one was: of the same type and call, or the same text
grown. -/
structure Continues (old new : Json) : Prop where
  id : new.strField "id" = old.strField "id"
  type : new.strField "type" = old.strField "type"
  call : old.strField "type" ≠ some "resource" →
      new.strField "toolCallId" = old.strField "toolCallId" ∧
      new.strField "tool_use_id" = old.strField "tool_use_id"
  text : ¬ Plain old → ∃ s more, old.strField "text" = some s ∧
    new.strField "text" = some (s ++ more)

/-- Every block that is stored stays in its place. -/
def KeepsPlaces (t t' : Transcript) : Prop :=
  ∀ (i : ℕ) old, t.snapshotBlocks[i]? = some old →
    ∃ new, t'.snapshotBlocks[i]? = some new ∧ (new = old ∨ Continues old new)

variable {i : ℕ} {block : Json}

theorem Continues.trans {a b c : Json} (h : Continues a b) (h' : Continues b c) :
    Continues a c := by
  refine ⟨h'.id.trans h.id, h'.type.trans h.type, fun hnot => ?_, fun hp => ?_⟩
  · have hc := h'.call (h.type ▸ hnot)
    exact ⟨hc.1.trans (h.call hnot).1, hc.2.trans (h.call hnot).2⟩
  · obtain ⟨s, more, hs, hm⟩ := h.text hp
    obtain ⟨s', more', hs', hm'⟩ := h'.text (by rwa [Plain, h.type])
    refine ⟨s, more ++ more', hs, ?_⟩
    rw [hm', Option.some.inj (hs'.symm.trans hm), String.append_assoc]

theorem KeepsPlaces.refl (t : Transcript) : KeepsPlaces t t :=
  fun _ old hold => ⟨old, hold, .inl rfl⟩

theorem KeepsPlaces.trans {t'' : Transcript} (h : KeepsPlaces t t') (h' : KeepsPlaces t' t'') :
    KeepsPlaces t t'' := by
  intro i old hold
  obtain ⟨mid, hmid, hc⟩ := h i old hold
  obtain ⟨new, hnew, hc'⟩ := h' i mid hmid
  refine ⟨new, hnew, ?_⟩
  rcases hc with rfl | hc
  · exact hc'
  · rcases hc' with rfl | hc'
    · exact .inr hc
    · exact .inr (hc.trans hc')

theorem Puts.snapshotBlocks (h : Puts t i block t') :
    (i < t.blocks.length ∧ t'.snapshotBlocks = t.snapshotBlocks.set i block) ∨
      i = t.snapshotBlocks.length ∧ t'.snapshotBlocks = t.snapshotBlocks ++ [block] := by
  cases h with
  | replaced hi blocks frame =>
    obtain ⟨hm, hte, ht, -, hme, -, -⟩ := frame
    refine .inl ⟨hi, ?_⟩
    have hp : t'.pendingBlock = t.pendingBlock := by
      rw [Transcript.pendingBlock, Transcript.blockId, hm, hte, ht, hme, blocks, length_set]
      rfl
    unfold Transcript.snapshotBlocks
    rw [hte, blocks, hp]
    split_ifs
    · rfl
    · rw [set_append_left _ _ hi]
  | appended hi blocks frame =>
    refine .inr ⟨hi, ?_⟩
    rw [Transcript.snapshotBlocks, if_pos frame.2.1, blocks]

theorem HasRole.continues {id : String} {old new : Json} (h : HasRole id old role)
    (h' : HasRole id new role) : Continues old new := by
  refine ⟨h'.strField_id.trans h.strField_id.symm, h'.marks.1.trans h.marks.1.symm, fun hnot => ?_,
    fun hp => absurd h.plain hp⟩
  have hn' : new.strField "type" ≠ some "resource" := by rwa [h'.marks.1, ← h.marks.1]
  exact ⟨(h'.marks.2 hn').1.trans (h.marks.2 hnot).1.symm,
    (h'.marks.2 hn').2.trans (h.marks.2 hnot).2.symm⟩

theorem Records.keepsPlaces (h : Records t i block role t') : KeepsPlaces t t' := by
  intro j old hold
  rcases h.puts.snapshotBlocks with ⟨hi, hset⟩ | ⟨hi, ha⟩
  · rw [hset, getElem?_set]
    split_ifs with hij hlt
    · subst hij
      obtain ⟨b, hb, hr⟩ := h.old hi
      rw [getElem?_blocks_le t hb] at hold
      cases hold
      exact ⟨block, rfl, .inr (hr.continues h.hasRole)⟩
    · exact absurd (List.getElem?_eq_some_iff.mp hold).1 (hij ▸ hlt)
    · exact ⟨old, hold, .inl rfl⟩
  · rw [ha]
    exact ⟨old, getElem?_append_of_some hold, .inl rfl⟩

theorem RecordsAll.keepsPlaces {blocks : List (String × Json)} (h : RecordsAll t blocks t') :
    KeepsPlaces t t' := by
  induction h with
  | nil => exact .refl _
  | cons _ hr _ ih => exact hr.keepsPlaces.trans ih

theorem Chunked.keepsPlaces {chunk : String} {found : Option Fields}
    (h : Chunked t chunk found t') :
    KeepsPlaces t t' := by
  have hbl : t'.blocks = t.blocks := by rw [h.frame]
  have htex : t'.text = t.text ++ chunk := by rw [h.frame]
  have hth : t'.pendingThought = t.pendingThought := by rw [h.frame]
  have hid : ∀ i, t'.blockId i = t.blockId i := by
    intro i
    rw [h.frame]
    rfl
  intro i old hold
  by_cases hem : t.text = ""
  · rw [snapshotBlocks, if_pos hem, ← hbl] at hold
    exact ⟨old, getElem?_blocks_le t' hold, .inl rfl⟩
  · have hfu : t'.text ≠ "" := by
      rw [htex]
      exact fun hnil => hem (String.append_eq_empty_iff.mp hnil).1
    rw [snapshotBlocks, if_neg hem, getElem?_append] at hold
    rw [snapshotBlocks, if_neg hfu, hbl, getElem?_append]
    split_ifs at hold ⊢ with hi
    · exact ⟨old, hold, .inl rfl⟩
    · rw [getElem?_singleton] at hold ⊢
      split_ifs at hold ⊢ with hla
      cases hold
      obtain ⟨hid', htyp, hte'⟩ := strField_pendingBlock t'
      rw [hbl, hid] at hid'
      rw [hth] at htyp
      obtain ⟨hidO, hty, hte⟩ := strField_pendingBlock t
      refine ⟨_, rfl, .inr ⟨hid'.trans hidO.symm, htyp.trans hty.symm, fun _ => ?_, fun _ => ?_⟩⟩
      · have hno : ∀ u : Transcript, u.pendingBlock.strField "toolCallId" = none ∧
            u.pendingBlock.strField "tool_use_id" = none := by
          intro u
          rw [pendingBlock]
          split_ifs <;> exact ⟨rfl, rfl⟩
        exact ⟨(hno t').1.trans (hno t).1.symm, (hno t').2.trans (hno t).2.symm⟩
      · exact ⟨t.text, chunk, hte, hte'.trans (congrArg some htex)⟩

end Places

end Intentd.TurnRecorder
