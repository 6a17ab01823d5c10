import Intentd.JsonTexts

/-!
# JSON texts wrapped at a column

A provider breaks the lines of a JSON text at a fixed column, also inside its string literals and
their escapes. The repair takes control characters out of the literals. Outside of its literals a
JSON text has no quote, and inside them no bare control character; nothing else about JSON is used.
The text of every value is of that form.
-/
namespace Intentd.WrappedJson
open JsonValues JsonTexts List

def isControl (c : Char) : Bool := c.toNat < 0x20

/-- The loop over the characters: whether one was left out, and what is kept. -/
def repair (inString escaped : Bool) : List Char → Bool × List Char
  | [] => (false, [])
  | c :: rest =>
    if inString && isControl c then (true, (repair inString escaped rest).2)
    else
      let out := if escaped then repair inString false rest
        else if c = '\\' && inString then repair inString true rest
        else if c = '"' then repair (!inString) false rest
        else repair inString false rest
      (out.1, c :: out.2)

def repairWrappedJson (text : List Char) : Option (List Char) :=
  let out := repair false false text
  if out.1 then some out.2 else none

/-- The inside of a string literal from some place on, which may be right after a backslash. -/
def inLiteral (escaped : Bool) : List Char → Bool
  | [] => !escaped
  | c :: rest => !isControl c && (escaped || c ≠ '"') && inLiteral (!escaped && c = '\\') rest

/-- A JSON text and the same text with so many control characters put anywhere into its literals. -/
inductive Wrapped : ℕ → List Char → List Char → Prop
  | nil : Wrapped 0 [] []
  | outside {n : ℕ} {text wrapped : List Char} {c : Char} (hc : c ≠ '"')
      (h : Wrapped n text wrapped) :
      Wrapped n (c :: text) (c :: wrapped)
  | literal {n : ℕ} {text wrapped body : List Char}
      (hb : inLiteral false (body.filter (!isControl ·)) = true)
      (h : Wrapped n text wrapped) : Wrapped (n + body.countP isControl)
        ('"' :: body.filter (!isControl ·) ++ '"' :: text) ('"' :: body ++ '"' :: wrapped)

variable {n : ℕ} {text wrapped body : List Char}

/-- A literal comes out without the control characters, and its last quote ends it. -/
theorem repair_literal {escaped : Bool} (hb : inLiteral escaped (body.filter (!isControl ·)) = true)
    (rest : List Char) : repair true escaped (body ++ '"' :: rest) =
      (decide (body.countP isControl ≠ 0) || (repair false false rest).1,
        body.filter (!isControl ·) ++ '"' :: (repair false false rest).2) := by
  induction body generalizing escaped with
  | nil =>
    have he : escaped = false := by simpa [inLiteral] using hb
    subst he
    rfl
  | cons c body ih =>
    rw [cons_append, repair]
    cases hc : isControl c with
    | true =>
      rw [filter_cons_of_neg (by simp [hc])] at hb ⊢
      simp [ih hb, hc]
    | false =>
      rw [filter_cons_of_pos (by simp [hc])] at hb ⊢
      simp only [inLiteral, Bool.and_eq_true] at hb
      obtain ⟨⟨-, hq⟩, hb⟩ := hb
      cases escaped with
      | true => simp_all
      | false =>
        by_cases hs : c = '\\'
        · simp_all
        · simp_all

theorem repair_wrapped (h : Wrapped n text wrapped) :
    repair false false wrapped = (decide (n ≠ 0), text) := by
  induction h with
  | nil => rfl
  | outside hc h ih => simp [repair, hc, ih]
  | literal hb h ih =>
    rw [cons_append, repair]
    simp [repair_literal hb, ih, -countP_eq_zero, Bool.or_comm]

/-- The repair gives the text before the wrapping, with every character outside of its literals
whatever it is, and nothing when nothing was put in. -/
theorem repair_exact (h : Wrapped n text wrapped) :
    repairWrappedJson wrapped = if n = 0 then none else some text := by
  rw [repairWrappedJson, repair_wrapped h]
  simp

/-! ## Texts of values -/

theorem Wrapped.append {m : ℕ} {more moreWrapped : List Char} (h : Wrapped n text wrapped)
    (hm : Wrapped m more moreWrapped) :
    Wrapped (n + m) (text ++ more) (wrapped ++ moreWrapped) := by
  induction h with
  | nil => simpa using hm
  | outside hc _ ih => exact .outside hc ih
  | literal hb _ ih =>
    rw [Nat.add_right_comm, append_assoc, append_assoc, cons_append, cons_append]
    exact .literal hb ih

theorem Wrapped.plain (h : '"' ∉ text) : Wrapped 0 text text := by
  induction text with
  | nil => exact .nil
  | cons c text ih =>
    rw [mem_cons, not_or] at h
    exact .outside (Ne.symm h.1) (ih h.2)

theorem inLiteral_escape (c : Char) (rest : List Char) :
    inLiteral false (escape c ++ rest) = inLiteral false rest := by
  have hdigit : ∀ d < 16, isControl (Nat.digitChar d) = false ∧ Nat.digitChar d ≠ '"' ∧
      Nat.digitChar d ≠ '\\' := by decide
  rcases escape_cases c with ⟨l, he, hl, -⟩ | ⟨high, hh, low, hl, he, -⟩ | ⟨he, hq, hs, hc, -⟩
  · have hletter : ∀ l ∈ ['"', '\\', 'n', 'r', 't', 'b', 'f'], isControl l = false := by
      simp only [mem_cons, not_mem_nil, or_false]
      rintro l (rfl | rfl | rfl | rfl | rfl | rfl | rfl) <;> rfl
    simp [he, inLiteral, hletter l hl, show isControl '\\' = false by decide]
  · have hhigh := hdigit high (by omega)
    have hlow := hdigit low hl
    simp [he, inLiteral, hhigh, hlow, show isControl '\\' = false by decide,
      show isControl 'u' = false by decide, show isControl '0' = false by decide]
  · have hc : isControl c = false := decide_eq_false (by omega)
    simp [he, inLiteral, hq, hs, hc]

theorem wrapped_quoted (s : String) : Wrapped 0 (quoted s) (quoted s) := by
  have hin : inLiteral false (s.toList.flatMap escape) = true := by
    induction s.toList with
    | nil => rfl
    | cons c text ih => rwa [flatMap_cons, inLiteral_escape]
  have hnot : ∀ {escaped : Bool} {text : List Char}, inLiteral escaped text = true →
      ∀ c ∈ text, isControl c = false := by
    intro escaped text h
    induction text generalizing escaped with
    | nil => simp
    | cons c text ih =>
      simp only [inLiteral, Bool.and_eq_true, Bool.not_eq_true'] at h
      exact forall_mem_cons.mpr ⟨h.1.1, ih h.2⟩
  have hfilter : (s.toList.flatMap escape).filter (!isControl ·) = s.toList.flatMap escape :=
    filter_eq_self.mpr fun c hc => by simp [hnot hin c hc]
  have hnone : (s.toList.flatMap escape).countP isControl = 0 :=
    countP_eq_zero.mpr fun c hc => by simp [hnot hin c hc]
  have hb : inLiteral false ((s.toList.flatMap escape).filter (!isControl ·)) = true := by
    rwa [hfilter]
  have h := Wrapped.literal hb .nil
  rwa [hfilter, hnone] at h

/-- The text of a value has its quotes around literals, as numbers have none. -/
theorem wrapped_jsonText (v : Json) (h : ∀ text, Json.Within (.num text) v → '"' ∉ text.toList) :
    Wrapped 0 (jsonText v) (jsonText v) := by
  induction v using Json.tree_induction with
  | null => exact .plain (by decide)
  | bool b => cases b <;> exact .plain (by decide)
  | num text => exact .plain (h text .self)
  | str s => exact wrapped_quoted s
  | arr items ih =>
    have hitems : Wrapped 0 (itemsText items) (itemsText items) := by
      have hall : ∀ item ∈ items, Wrapped 0 (jsonText item) (jsonText item) := fun item hi =>
        ih item hi fun text ht => h text (.item hi ht)
      clear h ih
      induction items with
      | nil => exact .nil
      | cons item items ih =>
        obtain ⟨hone, hall⟩ := forall_mem_cons.mp hall
        cases items with
        | nil => exact hone
        | cons next items => exact hone.append (.outside (by decide) (ih hall))
    exact .outside (by decide) (hitems.append (.plain (by decide)))
  | obj fields ih =>
    have hfields : Wrapped 0 (fieldsText fields) (fieldsText fields) := by
      have hall : ∀ field ∈ fields, Wrapped 0 (jsonText field.2) (jsonText field.2) :=
        fun field hf =>
        ih field hf fun text ht => h text (.field hf ht)
      clear h ih
      induction fields with
      | nil => exact .nil
      | cons field fields ih =>
        obtain ⟨hone, hall⟩ := forall_mem_cons.mp hall
        have hfirst := (wrapped_quoted field.1).append (.outside (c := ':') (by decide) hone)
        cases fields with
        | nil => exact hfirst
        | cons next fields => exact hfirst.append (.outside (by decide) (ih hall))
    exact .outside (by decide) (hfields.append (.plain (by decide)))

theorem split_escape_reassembled :
    repairWrappedJson ['[', '"', '\\', '\n', 'n', '"', '\n', ']'] =
      some ['[', '"', '\\', 'n', '"', '\n', ']'] :=
  repair_exact (.outside (by decide) (@Wrapped.literal 0 _ _ ['\\', '\n', 'n'] (by decide)
    (.outside (by decide) (.outside (by decide) .nil))))

end Intentd.WrappedJson
