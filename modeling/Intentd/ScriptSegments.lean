import Mathlib.Data.List.Basic

/-!
# Names of script output folders

An id is written as one path component: letters, digits, `_` and `-` stand for themselves and
every other byte is escaped. Reading a name back refuses an escape that is not needed or is
written in another way. It accepts an escaped NUL, which no id may have, and names longer than any
that is written.
-/
namespace Intentd.ScriptSegments
open List

def maxSegmentBytes : ℕ := 255

/-- An ASCII letter or digit, `_` or `-`. -/
def passes (n : ℕ) : Bool :=
  48 ≤ n && n ≤ 57 || 65 ≤ n && n ≤ 90 || 97 ≤ n && n ≤ 122 || n = 95 || n = 45

def hexDigit (n : ℕ) : Char := Char.ofNat (if n < 10 then 48 + n else 55 + n)

def hex (b : UInt8) : List Char := [hexDigit (b.toNat / 16), hexDigit (b.toNat % 16)]

def encodeByte (b : UInt8) : List Char :=
  if passes b.toNat then [Char.ofNat b.toNat] else '%' :: hex b

def bytes (id : String) : List UInt8 := id.toByteArray.data.toList

def encodeSegment (id : String) : Except String String :=
  if id = "" then .error "script output id must not be empty"
  else if '\x00' ∈ id.toList then .error "script output id must not contain NUL"
  else
    let out := String.ofList ((bytes id).flatMap encodeByte)
    if maxSegmentBytes < out.utf8ByteSize then
      .error s!"script output id is too long ({id.utf8ByteSize} bytes)"
    else .ok out

def hexValue (c : Char) : Option ℕ :=
  let n := c.toNat
  if 48 ≤ n ∧ n ≤ 57 then some (n - 48)
  else if 65 ≤ n ∧ n ≤ 70 then some (n - 55)
  else if 97 ≤ n ∧ n ≤ 102 then some (n - 87)
  else none

/-- The number two digits stand for. A sign may take the place of the first. -/
def fromStrRadix (a b : Char) : Option UInt8 :=
  if a = '+' then (hexValue b).map UInt8.ofNat
  else (hexValue a).bind fun x => (hexValue b).map fun y => UInt8.ofNat (16 * x + y)

def decodeBytes : List Char → Option (List UInt8)
  | [] => some []
  | '%' :: a :: b :: rest =>
    (fromStrRadix a b).bind fun v =>
      if passes v.toNat ∨ [a, b] ≠ hex v then none else (decodeBytes rest).map (v :: ·)
  | c :: rest => if passes c.toNat then (decodeBytes rest).map (UInt8.ofNat c.toNat :: ·) else none

def decodeSegment (segment : String) : Option String :=
  ((decodeBytes segment.toList).bind fun out => String.fromUTF8? ⟨out.toArray⟩).filter (· ≠ "")

section Bytes

variable {b : UInt8} {n : ℕ} {chars : List Char} {out : List UInt8}

theorem toNat_ofNat_of_lt (h : n < 256) : (Char.ofNat n).toNat = n := by
  rw [Char.ofNat, dif_pos (.inl (by omega))]
  rfl

theorem hexValue_hexDigit (h : n < 16) : hexValue (hexDigit n) = some n := by
  have hd : (hexDigit n).toNat = if n < 10 then 48 + n else 55 + n := by
    rw [hexDigit, toNat_ofNat_of_lt]
    split_ifs <;> omega
  rw [hexValue, hd]
  split_ifs <;> first | omega | (congr 1; omega)

theorem passes_lt (h : passes n = true) : n < 128 ∧ n ≠ 37 := by
  simp only [passes, Bool.or_eq_true, Bool.and_eq_true, decide_eq_true_eq] at h
  omega

theorem fromStrRadix_hex (b : UInt8) :
    fromStrRadix (hexDigit (b.toNat / 16)) (hexDigit (b.toNat % 16)) = some b := by
  have hb := b.toNat_lt
  have hne : hexDigit (b.toNat / 16) ≠ '+' := by
    intro heq
    have hv := hexValue_hexDigit (n := b.toNat / 16) (by omega)
    rw [heq] at hv
    cases hv
  rw [fromStrRadix, if_neg hne, hexValue_hexDigit (by omega), hexValue_hexDigit (by omega),
    Option.bind_some, Option.map_some, Nat.div_add_mod, UInt8.ofNat_toNat]

theorem decodeBytes_encodeByte (b : UInt8) (rest : List Char) :
    decodeBytes (encodeByte b ++ rest) = (decodeBytes rest).map (b :: ·) := by
  rw [encodeByte]
  split_ifs with hp
  · have hc := toNat_ofNat_of_lt b.toNat_lt
    rw [singleton_append, decodeBytes, hc, if_pos hp, UInt8.ofNat_toNat]
    intro x y tail hx _
    rw [hx] at hc
    exact (passes_lt hp).2 hc.symm
  · rw [hex, cons_append, cons_append, cons_append, nil_append, decodeBytes, fromStrRadix_hex,
      Option.bind_some]
    exact if_neg (by simp [hex, hp])

theorem decodeBytes_flatMap (out : List UInt8) :
    decodeBytes (out.flatMap encodeByte) = some out := by
  induction out with
  | nil => rfl
  | cons b out ih => rw [flatMap_cons, decodeBytes_encodeByte, ih, Option.map_some]

/-- Only what would be written is read. -/
theorem flatMap_of_decodeBytes (h : decodeBytes chars = some out) :
    out.flatMap encodeByte = chars := by
  fun_induction decodeBytes chars generalizing out with
  | case1 =>
    cases h
    rfl
  | case2 x y rest ih =>
    obtain ⟨v, -, h⟩ := Option.bind_eq_some_iff.mp h
    split_ifs at h with hv
    obtain ⟨tail, ht, rfl⟩ := Option.map_eq_some_iff.mp h
    simp only [not_or, ne_eq, not_not, Bool.not_eq_true] at hv
    rw [flatMap_cons, ih ht, encodeByte, hv.1, if_neg Bool.false_ne_true, ← hv.2]
    rfl
  | case3 c rest _ hp ih =>
    obtain ⟨tail, ht, rfl⟩ := Option.map_eq_some_iff.mp h
    have hc : (UInt8.ofNat c.toNat).toNat = c.toNat :=
      UInt8.toNat_ofNat_of_lt' (Nat.lt_trans (passes_lt hp).1 (by decide))
    rw [flatMap_cons, ih ht, encodeByte, hc, if_pos hp, Char.ofNat_toNat]
    rfl
  | case4 => cases h

theorem passes_hexDigit (h : n < 16) : passes (hexDigit n).toNat = true := by
  rw [hexDigit, toNat_ofNat_of_lt (by split_ifs <;> omega), passes]
  split_ifs <;> simp <;> omega

theorem hexDigits_zero : '0' = hexDigit (b.toNat / 16) ∧ '0' = hexDigit (b.toNat % 16) ↔ 0 = b := by
  constructor
  · intro h
    have hr := fromStrRadix_hex b
    rw [← h.1, ← h.2] at hr
    exact Option.some.inj hr
  · rintro rfl
    decide

/-- An escape begins at a percent sign and nowhere else, so an escaped NUL stands for one. -/
theorem escaped_nul_infix (out : List UInt8) :
    ['%', '0', '0'] <:+: out.flatMap encodeByte ↔ 0 ∈ out := by
  have hne {c : Char} (hc : passes c.toNat = true) : '%' ≠ c := by
    rintro rfl
    cases hc
  induction out with
  | nil => simp
  | cons b out ih =>
    have hb := b.toNat_lt
    rw [flatMap_cons, encodeByte, mem_cons]
    split_ifs with hp
    · have hc : '%' ≠ Char.ofNat b.toNat := hne (by rwa [toNat_ofNat_of_lt hb])
      have h0 : 0 ≠ b := by
        rintro rfl
        cases hp
      simp [infix_cons_iff, hc, h0, ih]
    · have hx := hne (passes_hexDigit (n := b.toNat / 16) (by omega))
      have hy := hne (passes_hexDigit (n := b.toNat % 16) (by omega))
      simp [hex, infix_cons_iff, hx, hy, hexDigits_zero, ih]

theorem mem_utf8EncodeChar_zero {c : Char} : 0 ∈ String.utf8EncodeChar c ↔ c = '\x00' := by
  have hz : c = '\x00' ↔ c.val.toNat = 0 := by
    rw [← Char.toNat_inj]
    rfl
  have hm {k : ℕ} : 0 = UInt8.ofNat k ↔ k % 256 = 0 := by
    rw [← UInt8.toNat_inj, UInt8.toNat_ofNat', eq_comm]
    rfl
  rw [hz, String.utf8EncodeChar]
  split_ifs <;> simp only [mem_cons, not_mem_nil, or_false, hm] <;> omega

end Bytes

section Segments

variable {id segment : String}

theorem mem_bytes_zero : 0 ∈ bytes id ↔ '\x00' ∈ id.toList := by
  rw [bytes, ← String.utf8Encode_toList]
  simp [List.utf8Encode, mem_utf8EncodeChar_zero]

theorem fromUTF8?_eq_some {out : List UInt8} :
    String.fromUTF8? ⟨out.toArray⟩ = some id ↔ bytes id = out := by
  rw [String.fromUTF8?, bytes]
  split_ifs with hv
  · rw [Option.some.injEq]
    constructor
    · rintro rfl
      rfl
    · rintro rfl
      rfl
  · refine ⟨nofun, ?_⟩
    rintro rfl
    exact absurd id.isValidUTF8 hv

theorem decodeSegment_eq_some : decodeSegment segment = some id ↔
    id ≠ "" ∧ String.ofList ((bytes id).flatMap encodeByte) = segment := by
  rw [decodeSegment, Option.filter_eq_some_iff, Option.bind_eq_some_iff,
    decide_eq_true_eq, and_comm]
  refine and_congr_right fun _ => ⟨?_, ?_⟩
  · rintro ⟨out, hd, hs⟩
    rw [fromUTF8?_eq_some.mp hs, flatMap_of_decodeBytes hd, String.ofList_toList]
  · rintro rfl
    rw [String.toList_ofList]
    exact ⟨bytes id, decodeBytes_flatMap _, fromUTF8?_eq_some.mpr rfl⟩

theorem encodeSegment_eq_ok : encodeSegment id = .ok segment ↔ id ≠ "" ∧ '\x00' ∉ id.toList ∧
    String.ofList ((bytes id).flatMap encodeByte) = segment ∧
      segment.utf8ByteSize ≤ maxSegmentBytes := by
  rw [encodeSegment]
  dsimp only
  split_ifs with he hn hl
  · simp [he]
  · simp [hn]
  · simp only [false_iff, not_and]
    rintro - - rfl
    omega
  · rw [Except.ok.injEq]
    constructor
    · rintro rfl
      exact ⟨he, hn, rfl, Nat.le_of_not_lt hl⟩
    · exact fun h => h.2.2.1

theorem passes_of_mem {b : UInt8} {c : Char} (h : c ∈ encodeByte b) :
    passes c.toNat = true ∨ c = '%' := by
  have hb := b.toNat_lt
  rw [encodeByte] at h
  split_ifs at h with hp
  · rw [mem_singleton.mp h, toNat_ofNat_of_lt hb]
    exact .inl hp
  · rw [hex, mem_cons, mem_cons, mem_singleton] at h
    rcases h with rfl | rfl | rfl
    · exact .inr rfl
    · exact .inl (passes_hexDigit (by omega))
    · exact .inl (passes_hexDigit (by omega))

/-- One path component that names no other directory. -/
structure SafeComponent (segment : String) : Prop where
  nonempty : segment ≠ ""
  apart : segment ≠ "." ∧ segment ≠ ".."
  single : '/' ∉ segment.toList ∧ '\\' ∉ segment.toList

theorem safe_of_encodeSegment (h : encodeSegment id = .ok segment) : SafeComponent segment := by
  obtain ⟨he, -, rfl, -⟩ := encodeSegment_eq_ok.mp h
  have hnot (c : Char) (hp : passes c.toNat = false) (hc : c ≠ '%') :
      c ∉ (String.ofList ((bytes id).flatMap encodeByte)).toList := by
    rw [String.toList_ofList]
    intro hin
    obtain ⟨b, -, hb⟩ := mem_flatMap.mp hin
    rcases passes_of_mem hb with hy | hy
    · rw [hp] at hy
      cases hy
    · exact hc hy
  refine ⟨fun hnil =>
    he ?_, ⟨fun heq => hnot '.' rfl (by decide) ?_, fun heq => hnot '.' rfl (by decide) ?_⟩,
    hnot _ rfl (by decide), hnot _ rfl (by decide)⟩
  · have hb := decodeBytes_flatMap (bytes id)
    rw [← String.toList_ofList (l := (bytes id).flatMap encodeByte), hnil] at hb
    exact Option.some.inj ((fromUTF8?_eq_some.mpr (Option.some.inj hb).symm).symm.trans
      (fromUTF8?_eq_some.mpr rfl))
  · rw [heq]
    exact mem_cons_self
  · rw [heq]
    exact mem_cons_self

/-- An id and a name of a folder. A name that reads as an id is the one written for it exactly if it
has no escaped NUL and is not too long. -/
structure Faithful (id segment : String) : Prop where
  safe : encodeSegment id = .ok segment → SafeComponent segment
  decodes : encodeSegment id = .ok segment → decodeSegment segment = some id
  injective : encodeSegment id = .ok segment → ∀ id', encodeSegment id' = .ok segment → id = id'
  canonical : decodeSegment segment = some id → (encodeSegment id = .ok segment ↔
    ¬['%', '0', '0'] <:+: segment.toList ∧ segment.utf8ByteSize ≤ maxSegmentBytes)
  single : decodeSegment segment = some id → ∀ segment', decodeSegment segment' = some id →
    segment = segment'

theorem decodeSegment_of_encodeSegment (h : encodeSegment id = .ok segment) :
    decodeSegment segment = some id := by
  obtain ⟨he, -, hs, -⟩ := encodeSegment_eq_ok.mp h
  exact decodeSegment_eq_some.mpr ⟨he, hs⟩

theorem segments_faithful (id segment : String) : Faithful id segment where
  safe := safe_of_encodeSegment
  decodes := decodeSegment_of_encodeSegment
  injective h _ h' :=
    Option.some.inj
      ((decodeSegment_of_encodeSegment h).symm.trans (decodeSegment_of_encodeSegment h'))
  canonical h := by
    obtain ⟨he, rfl⟩ := decodeSegment_eq_some.mp h
    simp [encodeSegment_eq_ok, he, String.toList_ofList, escaped_nul_infix, mem_bytes_zero]
  single h _ h' := (decodeSegment_eq_some.mp h).2.symm.trans (decodeSegment_eq_some.mp h').2

/-- A name that no id is written as is read as one. -/
theorem escaped_nul_decodes :
    decodeSegment "%00" = some "\x00" ∧ ∀ id segment, encodeSegment id = .ok segment →
      segment ≠ "%00" := by
  have hd : decodeSegment "%00" = some "\x00" := decodeSegment_eq_some.mpr ⟨by decide, rfl⟩
  refine ⟨hd, ?_⟩
  rintro id segment h rfl
  have hid := Option.some.inj ((decodeSegment_of_encodeSegment h).symm.trans hd)
  rw [hid] at h
  cases h

end Segments

end Intentd.ScriptSegments
