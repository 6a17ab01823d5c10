import Mathlib.Data.List.Basic

/-!
# Bytes read as UTF-8 with replacements

A first byte says how many bytes go on with it. A sequence that stops before it is complete, a byte
that cannot be the next of its sequence and a byte that begins none give one replacement character
for the bytes that were taken, and reading goes on with the byte that did not fit. The strict
reading has no result for such bytes.

An ASCII byte ends every sequence, so what is before it and what is after it are read apart.
-/
namespace Intentd.LossyUtf8
open List

def replacement : Char := '�'

def wants (lead : UInt8) : Option ℕ :=
  if lead.toNat < 0x80 then some 0
  else if 0xC2 ≤ lead.toNat ∧ lead.toNat ≤ 0xDF then some 1
  else if 0xE0 ≤ lead.toNat ∧ lead.toNat ≤ 0xEF then some 2
  else if 0xF0 ≤ lead.toNat ∧ lead.toNat ≤ 0xF4 then some 3
  else none

/-- The least byte after a first byte. Smaller ones would make the sequence too long for its value.
-/
def leastNext (lead : UInt8) : ℕ :=
  if lead.toNat = 0xE0 then 0xA0 else if lead.toNat = 0xF0 then 0x90 else 0x80

/-- The greatest byte after a first byte. Greater ones would be surrogates or out of range. -/
def greatestNext (lead : UInt8) : ℕ :=
  if lead.toNat = 0xED then 0x9F else if lead.toNat = 0xF4 then 0x8F else 0xBF

/-- Whether a byte goes on with a sequence that has some bytes after its first. -/
def goesOn (lead : UInt8) (taken : ℕ) (b : UInt8) : Bool :=
  if taken = 0 then leastNext lead ≤ b.toNat ∧ b.toNat ≤ greatestNext lead
  else 0x80 ≤ b.toNat ∧ b.toNat ≤ 0xBF

/-- The bytes that go on with a sequence, and the bytes from the first that does not fit. -/
def takeNext (lead : UInt8) : ℕ → ℕ → List UInt8 → Option (List UInt8) × List UInt8
  | 0, _, rest => (some [], rest)
  | _ + 1, _, [] => (none, [])
  | want + 1, taken, b :: rest =>
    if goesOn lead taken b then
      ((takeNext lead want (taken + 1) rest).1.map (b :: ·),
        (takeNext lead want (taken + 1) rest).2)
    else (none, b :: rest)

def leadBits (lead : UInt8) : ℕ → ℕ
  | 0 => lead.toNat
  | 1 => lead.toNat % 32
  | 2 => lead.toNat % 16
  | _ => lead.toNat % 8

def scalar (lead : UInt8) (next : List UInt8) : ℕ :=
  next.foldl (fun value b => value * 64 + b.toNat % 64) (leadBits lead next.length)

/-- The first character, if its bytes are complete, and the bytes that are left. -/
def first (lead : UInt8) (rest : List UInt8) : Option Char × List UInt8 :=
  match wants lead with
  | none => (none, rest)
  | some want =>
    ((takeNext lead want 0 rest).1.map fun next => Char.ofNat (scalar lead next),
      (takeNext lead want 0 rest).2)

def lossyWith : ℕ → List UInt8 → List Char
  | 0, _ => []
  | _ + 1, [] => []
  | fuel + 1, lead :: rest =>
    (first lead rest).1.getD replacement :: lossyWith fuel (first lead rest).2

variable (bytes : List UInt8)

def lossy : List Char := lossyWith bytes.length bytes

def strictWith : ℕ → List UInt8 → Option (List Char)
  | _, [] => some []
  | 0, _ :: _ => none
  | fuel + 1, lead :: rest => do
      let c ← (first lead rest).1
      let chars ← strictWith fuel (first lead rest).2
      some (c :: chars)

def strict : Option (List Char) := strictWith bytes.length bytes

variable {lead b : UInt8} {rest more : List UInt8}

theorem takeNext_suffix (lead : UInt8) (want taken : ℕ) (rest : List UInt8) :
    (takeNext lead want taken rest).2 <:+ rest := by
  induction want generalizing taken rest with
  | zero => exact suffix_rfl
  | succ want ih =>
    cases rest with
    | nil => exact suffix_rfl
    | cons b rest =>
      rw [takeNext]
      split
      · exact (ih (taken + 1) rest).trans (suffix_cons b rest)
      · exact suffix_rfl

theorem first_suffix (lead : UInt8) (rest : List UInt8) : (first lead rest).2 <:+ rest := by
  rw [first]
  cases wants lead with
  | none => exact suffix_rfl
  | some want => exact takeNext_suffix lead want 0 rest

theorem first_length (lead : UInt8) (rest : List UInt8) :
    (first lead rest).2.length ≤ rest.length :=
  (first_suffix lead rest).length_le

theorem sequences_induction {P : List UInt8 → Prop} (nil : P [])
    (cons : ∀ lead rest, P (first lead rest).2 → P (lead :: rest)) (bytes : List UInt8) :
    P bytes := by
  induction hlen : bytes.length using Nat.strongRecOn generalizing bytes with
  | ind n ih =>
    cases bytes with
    | nil => exact nil
    | cons lead rest =>
      refine cons lead rest (ih _ ?_ _ rfl)
      rw [← hlen, length_cons]
      exact Nat.lt_succ_of_le (first_length lead rest)

variable {fuel : ℕ}

theorem lossyWith_eq (hf : bytes.length ≤ fuel) : lossyWith fuel bytes = lossy bytes := by
  induction bytes using sequences_induction generalizing fuel with
  | nil => cases fuel <;> rfl
  | cons lead rest ih =>
    have hle := first_length lead rest
    obtain ⟨fuel, rfl⟩ : ∃ k, fuel = k + 1 := ⟨fuel - 1, by rw [length_cons] at hf; omega⟩
    rw [length_cons] at hf
    rw [lossy, length_cons, lossyWith, lossyWith, ih (by omega), ih hle]

theorem lossy_cons (lead : UInt8) (rest : List UInt8) :
    lossy (lead :: rest) = (first lead rest).1.getD replacement :: lossy (first lead rest).2 := by
  rw [lossy, length_cons, lossyWith, lossyWith_eq _ (first_length lead rest)]

theorem strictWith_eq (hf : bytes.length ≤ fuel) : strictWith fuel bytes = strict bytes := by
  induction bytes using sequences_induction generalizing fuel with
  | nil => cases fuel <;> rfl
  | cons lead rest ih =>
    have hle := first_length lead rest
    obtain ⟨fuel, rfl⟩ : ∃ k, fuel = k + 1 := ⟨fuel - 1, by rw [length_cons] at hf; omega⟩
    rw [length_cons] at hf
    rw [strict, length_cons, strictWith, strictWith, ih (by omega), ih hle]

theorem strict_cons (lead : UInt8) (rest : List UInt8) :
    strict (lead :: rest) = (first lead rest).1.bind fun c =>
      (strict (first lead rest).2).map (c :: ·) := by
  rw [strict, length_cons, strictWith, strictWith_eq _ (first_length lead rest)]
  cases (first lead rest).1 with
  | none => rfl
  | some c => cases strict (first lead rest).2 <;> rfl

/-! ## ASCII bytes -/

variable {taken : ℕ}

theorem leastNext_ge (lead : UInt8) : 0x80 ≤ leastNext lead := by
  rw [leastNext]
  split
  · decide
  · split <;> decide

theorem goesOn_ge (h : goesOn lead taken b = true) : 0x80 ≤ b.toNat := by
  have hl := leastNext_ge lead
  rw [goesOn] at h
  split at h
  · rw [decide_eq_true_eq] at h
    omega
  · rw [decide_eq_true_eq] at h
    exact h.1

theorem goesOn_ascii (lead : UInt8) (taken : ℕ) (hb : b.toNat < 0x80) :
    goesOn lead taken b = false :=
  Bool.eq_false_iff.mpr fun h => absurd (goesOn_ge h) (Nat.not_le_of_lt hb)

theorem takeNext_append (lead : UInt8) (want taken : ℕ) (rest more : List UInt8)
    (hb : b.toNat < 0x80) :
    takeNext lead want taken (rest ++ b :: more) =
      ((takeNext lead want taken rest).1, (takeNext lead want taken rest).2 ++ b :: more) := by
  induction want generalizing taken rest with
  | zero => rfl
  | succ want ih =>
    cases rest with
    | nil => exact if_neg (by rw [goesOn_ascii lead taken hb]; exact Bool.false_ne_true)
    | cons c rest =>
      rw [cons_append, takeNext, takeNext, ih]
      split <;> rfl

theorem first_append (lead : UInt8) (rest more : List UInt8) (hb : b.toNat < 0x80) :
    first lead (rest ++ b :: more) = ((first lead rest).1, (first lead rest).2 ++ b :: more) := by
  rw [first, first]
  cases wants lead with
  | none => rfl
  | some want => simp only [takeNext_append lead want 0 rest more hb]

theorem lossy_ascii (rest : List UInt8) (hb : b.toNat < 0x80) :
    lossy (b :: rest) = Char.ofNat b.toNat :: lossy rest := by
  rw [lossy_cons, first, wants, if_pos hb]
  rfl

theorem lossy_append (bytes more : List UInt8) (hb : b.toNat < 0x80) :
    lossy (bytes ++ b :: more) = lossy bytes ++ lossy (b :: more) := by
  induction bytes using sequences_induction with
  | nil => rfl
  | cons lead rest ih =>
    rw [cons_append, lossy_cons, first_append lead rest more hb, lossy_cons lead rest,
      cons_append, ih]

/-! ## Sequences of the length they want -/

variable {want : ℕ} {next : List UInt8}

/-- Bytes that are as many as a sequence wants are taken all, whatever follows, or do not fit. -/
theorem takeNext_exact (lead : UInt8) (taken : ℕ) (next more : List UInt8) :
    takeNext lead next.length taken next = (some next, []) ∧
        takeNext lead next.length taken (next ++ more) = (some next, more) ∨
      (takeNext lead next.length taken next).1 = none ∧
        (takeNext lead next.length taken (next ++ more)).1 = none := by
  induction next generalizing taken with
  | nil => exact Or.inl ⟨rfl, rfl⟩
  | cons b next ih =>
    rw [length_cons, cons_append, takeNext, takeNext]
    cases goesOn lead taken b with
    | false => exact Or.inr ⟨rfl, rfl⟩
    | true =>
      rcases ih (taken + 1) with ⟨ha, hf⟩ | ⟨ha, hf⟩
      · rw [ha, hf]
        exact Or.inl ⟨rfl, rfl⟩
      · rw [ha, hf]
        exact Or.inr ⟨rfl, rfl⟩

theorem takeNext_short (lead : UInt8) (taken : ℕ) (next : List UInt8) (h : next.length < want) :
    (takeNext lead want taken next).1 = none := by
  induction next generalizing want taken with
  | nil =>
    cases want with
    | zero => exact absurd h (Nat.lt_irrefl 0)
    | succ want => rfl
  | cons b next ih =>
    cases want with
    | zero => exact absurd h (Nat.not_lt_zero _)
    | succ want =>
      rw [takeNext]
      split
      · rw [ih (taken + 1) (Nat.lt_of_succ_lt_succ h)]
        rfl
      · rfl

theorem first_exact (more : List UInt8) (hw : wants lead = some next.length) :
    (∃ c, strict (lead :: next) = some [c] ∧ lossy (lead :: (next ++ more)) = c :: lossy more) ∨
      strict (lead :: next) = none ∧ ∃ chars,
        lossy (lead :: (next ++ more)) = replacement :: chars := by
  rw [strict_cons, lossy_cons, first, first, hw]
  dsimp only
  rcases takeNext_exact lead 0 next more with ⟨ha, hf⟩ | ⟨ha, hf⟩
  · rw [ha, hf]
    exact Or.inl ⟨_, rfl, rfl⟩
  · rw [ha, hf]
    exact Or.inr ⟨rfl, _, rfl⟩

theorem first_short (hw : wants lead = some want) (h : rest.length < want) :
    ∃ chars, lossy (lead :: rest) = replacement :: chars := by
  rw [lossy_cons, first, hw]
  dsimp only
  rw [takeNext_short lead 0 rest h]
  exact ⟨_, rfl⟩

theorem first_invalid (rest : List UInt8) (hw : wants lead = none) :
    ∃ chars, lossy (lead :: rest) = replacement :: chars := by
  rw [lossy_cons, first, hw]
  exact ⟨_, rfl⟩

/-! ## Lines -/

theorem takeNext_some (h : (takeNext lead want taken rest).1 = some next) :
    next.length = want ∧ ∀ b bs, next = b :: bs → goesOn lead taken b = true := by
  induction want generalizing taken rest next with
  | zero =>
    cases h
    exact ⟨rfl, fun b bs hnil => absurd hnil (cons_ne_nil b bs).symm⟩
  | succ want ih =>
    cases rest with
    | nil => cases h
    | cons c rest =>
      rw [takeNext] at h
      split at h
      next hg =>
        obtain ⟨bs, hbs, rfl⟩ := Option.map_eq_some_iff.mp h
        refine ⟨by rw [length_cons, (ih hbs).1], fun b bs' hc => ?_⟩
        cases hc
        exact hg
      next => cases h

theorem wants_cases (h : wants lead = some want) :
    want = 0 ∧ lead.toNat < 0x80 ∨ want = 1 ∧ 0xC2 ≤ lead.toNat ∧ lead.toNat ≤ 0xDF ∨
      want = 2 ∧ 0xE0 ≤ lead.toNat ∧ lead.toNat ≤ 0xEF ∨ want = 3 ∧ 0xF0 ≤ lead.toNat ∧
        lead.toNat ≤ 0xF4 := by
  simp only [wants] at h
  split_ifs at h with hone htwo ht hf
  · exact Or.inl ⟨(Option.some.inj h).symm, hone⟩
  · exact Or.inr (Or.inl ⟨(Option.some.inj h).symm, htwo⟩)
  · exact Or.inr (Or.inr (Or.inl ⟨(Option.some.inj h).symm, ht⟩))
  · exact Or.inr (Or.inr (Or.inr ⟨(Option.some.inj h).symm, hf⟩))

theorem goesOn_first (h : goesOn lead 0 b = true) : leastNext lead ≤ b.toNat ∧ b.toNat ≤ 0xBF := by
  rw [goesOn, if_pos rfl, decide_eq_true_eq, greatestNext] at h
  refine ⟨h.1, ?_⟩
  split_ifs at h <;> omega

theorem scalar_ge (hwa : wants lead = some (want + 1))
    (h : (takeNext lead (want + 1) 0 rest).1 = some next) : 0x80 ≤ scalar lead next := by
  obtain ⟨hlen, hgo⟩ := takeNext_some h
  rcases wants_cases hwa with ⟨hw, -⟩ | ⟨hw, hlow, hh⟩ | ⟨hw, hlow, hh⟩ | ⟨hw, hlow, hh⟩
  · omega
  · obtain ⟨b, rfl⟩ := length_eq_one_iff.mp (hlen.trans hw)
    simp only [scalar, foldl_cons, foldl_nil, length_singleton, leadBits]
    omega
  · obtain ⟨b, c, rfl⟩ := length_eq_two.mp (hlen.trans hw)
    obtain ⟨hl, hg⟩ := goesOn_first (hgo b [c] rfl)
    rw [leastNext] at hl
    simp only [scalar, foldl_cons, foldl_nil, length_cons, length_nil, leadBits]
    split_ifs at hl <;> omega
  · obtain ⟨b, c, d, rfl⟩ := length_eq_three.mp (hlen.trans hw)
    obtain ⟨hl, hg⟩ := goesOn_first (hgo b [c, d] rfl)
    rw [leastNext] at hl
    simp only [scalar, foldl_cons, foldl_nil, length_cons, length_nil, leadBits]
    split_ifs at hl <;> omega

theorem ofNat_eq_newline {n : ℕ} (h : Char.ofNat n = '\n') : n = 10 := by
  by_cases hv : n.isValidChar
  · have hof : Char.ofNat n = Char.ofNatAux n hv := dif_pos hv
    exact congrArg Char.toNat (hof.symm.trans h)
  · have hof : Char.ofNat n = '\x00' := dif_neg hv
    exact absurd (hof.symm.trans h) (by decide)

theorem replacement_ne_newline : replacement ≠ '\n' := by decide

theorem first_newline (h : (first lead rest).1.getD replacement = '\n') : lead = 10 := by
  rw [first] at h
  cases hw : wants lead with
  | none =>
    rw [hw] at h
    exact absurd h replacement_ne_newline
  | some want =>
    rw [hw] at h
    dsimp only at h
    cases ht : (takeNext lead want 0 rest).1 with
    | none =>
      rw [ht] at h
      exact absurd h replacement_ne_newline
    | some next =>
      rw [ht] at h
      have hv := ofNat_eq_newline h
      cases want with
      | zero =>
        cases ht
        exact UInt8.toNat_inj.mp hv
      | succ want =>
        have hge := scalar_ge hw ht
        omega

theorem newline_not_mem {bytes : List UInt8} (h : 10 ∉ bytes) : '\n' ∉ lossy bytes := by
  induction bytes using sequences_induction with
  | nil => exact not_mem_nil
  | cons lead rest ih =>
    rw [mem_cons, not_or] at h
    rw [lossy_cons, mem_cons, not_or]
    refine ⟨fun hn => h.1 (first_newline hn.symm).symm, ih fun hmem => h.2 ?_⟩
    exact (first_suffix lead rest).subset hmem

theorem splitOn_lossy (bytes : List UInt8) :
    (lossy bytes).splitOn '\n' = (bytes.splitOn 10).map lossy := by
  induction hlen : bytes.length using Nat.strongRecOn generalizing bytes with
  | ind n ih =>
    by_cases hmem : 10 ∈ bytes
    · obtain ⟨line, others, rfl, hl⟩ := eq_append_cons_of_mem hmem
      have hlt : others.length < n := by
        rw [← hlen, length_append, length_cons]
        omega
      have hn : (10 : UInt8).toNat < 0x80 := by decide
      rw [lossy_append line others hn, lossy_ascii others hn,
        splitOn_append_cons_self_of_not_mem hl, map_cons, ← ih _ hlt others rfl]
      exact splitOn_append_cons_self_of_not_mem (newline_not_mem hl) _
    · rw [splitOn_eq_singleton hmem, splitOn_eq_singleton (newline_not_mem hmem)]
      rfl

end Intentd.LossyUtf8
