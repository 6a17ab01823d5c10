import Intentd.JsonValues
import Intentd.UnicodeText

/-!
# Redaction of captured link frames

A frame that goes over an executor link is redacted before the traffic capture keeps it. A
secret key hides the string, object or array it names, an environment hides every value it
gives, and a PEM block is hidden wherever it stands. Three functions share the work: any value,
the overlay under a `profileEnv` key and the environment under an `env` key.

What is protected is said apart from them, by what is left of a frame once every secret and
every environment value is taken out of it. An overlay is only looked through for its `env`, so
a secret key that stands directly in one is left as it is.
-/
namespace Intentd.LinkRedaction
open JsonValues List Bool

def mask : Json := .str "***"

/-- The lower case of a letter, as far as it can be a letter of ASCII. Every other letter has
one letter outside ASCII for its lower case, which is in no word looked for here. -/
def lowerChar (c : Char) : List Char :=
  if c.toNat = 0x212A then ['k'] else if c.toNat = 0x130 then ['i', Char.ofNat 0x307]
  else [c.toLower]

/-- Keys that stay visible although they match a secret pattern. -/
def visibleKeys : List String := ["fingerprint", "credentialId", "stopId", "requestId"]

def secretWords : List String :=
  ["token", "secret", "password", "credential", "authorization", "cookie", "cert"]

/-- The text after an occurrence of `private` says `key`, at once or after one character. -/
def namesKey (rest : List Char) : Bool :=
  "key".toList.isPrefixOf rest || (1 < rest.length && "key".toList.isPrefixOf (rest.drop 1))

def secretKey (key : String) : Bool :=
  if key ∈ visibleKeys then false
  else
    let places := (key.toList.flatMap lowerChar).tails
    secretWords.any (fun word => places.any word.toList.isPrefixOf) ||
      places.any fun text => "private".toList.isPrefixOf text &&
        namesKey (text.drop "private".length)

example : secretKey "privateXKey" = true := by decide

example : secretKey "privateNotes" = false := by decide

/-- What stays readable under a secret key. -/
def isScalar : Json → Bool
  | .null | .num _ | .bool _ => true
  | _ => false

def beginsPem (text : String) : Bool :=
  "-----BEGIN".toList.isPrefixOf (text.toList.dropWhile UnicodeText.isWhitespace)

def hide (value : Json) : Json := if value.isNull then value else mask

/-! ## Walks over a value -/

/-- Where a value stands: anywhere, under a `profileEnv` key, under an `env` key, or in the list
of an environment. -/
inductive Place
  | value
  | overlay
  | env
  | pair
deriving DecidableEq

/-- What becomes of a member: it is masked, hidden, or walked through as what stands in a place. -/
inductive Rule
  | mask
  | hide
  | enter (place : Place)
deriving DecidableEq

structure Scheme where
  rule : Place → String → Json → Rule
  item : Place → Place
  text : Place → String → Json

mutual

def walk (S : Scheme) : Place → Json → Json
  | p, .obj map => .obj (walkMembers S p map)
  | p, .arr items => .arr (walkItems S (S.item p) items)
  | p, .str text => S.text p text
  | _, value => value

def walkMembers (S : Scheme) : Place → List (String × Json) → List (String × Json)
  | _, [] => []
  | p, (key, child) :: map =>
    (key, match S.rule p key child with
      | .mask => mask
      | .hide => hide child
      | .enter q => walk S q child) :: walkMembers S p map

def walkItems (S : Scheme) : Place → List Json → List Json
  | _, [] => []
  | p, item :: items => walk S p item :: walkItems S p items

end

def Scheme.member (S : Scheme) (p : Place) (key : String) (child : Json) : Json :=
  match S.rule p key child with
  | .mask => mask
  | .hide => hide child
  | .enter q => walk S q child

variable {p q : Place} {key : String} {v child : Json} {map : Fields} {items : List Json}

section Walks

variable {S : Scheme}

theorem walk_obj : walk S p (.obj map) = .obj (map.mapValues (S.member p)) := by
  rw [walk]
  congr 1
  induction map with
  | nil => rfl
  | cons member map ih => exact congrArg _ ih

theorem walk_arr : walk S p (.arr items) = .arr (items.map (walk S (S.item p))) := by
  rw [walk]
  congr 1
  induction items with
  | nil => rfl
  | cons item items ih => exact congrArg _ ih

theorem member_mask (h : S.rule p key child = .mask) : S.member p key child = mask := by
  rw [Scheme.member, h]

theorem member_hide (h : S.rule p key child = .hide) : S.member p key child = hide child := by
  rw [Scheme.member, h]

theorem member_enter (h : S.rule p key child = .enter q) :
    S.member p key child = walk S q child := by
  rw [Scheme.member, h]

theorem walk_scalar (h : isScalar v = true) : walk S p v = v := by
  cases v <;> first | rfl | cases h

/-- A walk that leaves a string for a string keeps scalars apart from all else. -/
theorem isScalar_walk (ht : ∀ text, isScalar (S.text p text) = false) :
    isScalar (walk S p v) = isScalar v := by
  cases v <;> first | rfl | exact ht _

theorem hide_hide (v : Json) : hide (hide v) = hide v := by
  cases v <;> rfl

theorem hide_masked (v : Json) : hide v = .null ∨ hide v = mask := by
  rw [hide]
  split_ifs with hn
  · exact .inl (Json.isNull_iff.mp hn)
  · exact .inr rfl

theorem isLeaf_hide (v : Json) : (hide v).isLeaf = true := by
  cases v <;> rfl

end Walks

/-! ## The redaction -/

/-- A string, an object or an array under a secret key. -/
def isSecret (key : String) (child : Json) : Bool := secretKey key && !isScalar child

def redactRule (key : String) (child : Json) : Rule :=
  if key = "profileEnv" then .enter .overlay
  else if key = "env" then .enter .env
  else if isSecret key child then .mask
  else .enter .value

/-- Anything but an object is redacted in an overlay as in an environment. -/
def redaction : Scheme where
  rule p key child :=
    match p with
    | .value => redactRule key child
    | .overlay => if key = "env" then .enter .env else .enter .value
    | .env => .hide
    | .pair => if key = "value" then .hide else redactRule key child
  item p :=
    match p with
    | .overlay | .env => .pair
    | .value | .pair => .value
  text p text :=
    match p with
    | .overlay | .env => mask
    | .value | .pair => if beginsPem text then mask else .str text

/-- Mask every secret in a value. -/
def redact (value : Json) : Json := walk redaction .value value

def redactProfileEnv (overlay : Json) : Json := walk redaction .overlay overlay

def redactEnv (env : Json) : Json := walk redaction .env env

/-- An entry of an environment with the value of its pair hidden. -/
def hideValue : Json → Json
  | .obj map =>
    .obj (Fields.mapValues (fun key value => if key = "value" then hide value else value) map)
  | entry => entry

section Redaction

variable {c : Json}

/-- The entries of an environment are redacted in two steps. -/
theorem redact_hideValue (entry : Json) :
    redact (hideValue entry) = walk redaction .pair entry := by
  cases entry with
  | null | bool | num | str => rfl
  | arr items => exact walk_arr.trans walk_arr.symm
  | obj map =>
    rw [redact, hideValue, walk_obj, walk_obj, Fields.mapValues_mapValues]
    refine congrArg _ (Fields.mapValues_congr fun member _ => ?_)
    by_cases hv : member.1 = "value"
    · have hp : redaction.rule .pair member.1 member.2 = .hide := if_pos hv
      rw [member_hide hp, if_pos hv, hv]
      rcases hide_masked member.2 with h | h <;> rw [h] <;> rfl
    · have hp : redaction.rule .pair member.1 member.2 = redaction.rule .value member.1 member.2 :=
        if_neg hv
      rw [if_neg hv, Scheme.member, Scheme.member, hp]

theorem isScalar_redacted : isScalar (walk redaction p v) = isScalar v := by
  refine isScalar_walk fun text => ?_
  cases p with
  | overlay | env => rfl
  | value | pair =>
    show isScalar (if beginsPem text then mask else .str text) = false
    split_ifs <;> rfl

theorem redaction_congr (hs : isScalar c = isScalar child) :
    redaction.rule p key c = redaction.rule p key child := by
  have hr : redactRule key c = redactRule key child := by
    rw [redactRule, redactRule, isSecret, isSecret, hs]
  cases p with
  | overlay | env => rfl
  | value => exact hr
  | pair => exact congrArg (ite (key = "value") Rule.hide) hr

theorem redactRule_ne_hide : redactRule key child ≠ .hide := by
  rw [redactRule]
  split_ifs <;> exact fun h => Rule.noConfusion h

theorem redaction_hide (h : redaction.rule p key child = .hide) (c : Json) :
    redaction.rule p key c = .hide := by
  cases p with
  | env => rfl
  | value => exact absurd h redactRule_ne_hide
  | overlay =>
    have hr : (if key = "env" then Rule.enter .env else .enter .value) = .hide := h
    split_ifs at hr
  | pair =>
    have hr : (if key = "value" then Rule.hide else redactRule key child) = .hide := h
    split_ifs at hr with hkey
    · exact if_pos hkey
    · exact absurd hr redactRule_ne_hide

theorem redactRule_mask (h : redactRule key child = .mask) : isSecret key child = true := by
  rw [redactRule] at h
  split_ifs at h with _ _ hs
  exact hs

theorem redaction_mask (h : redaction.rule p key child = .mask) : isSecret key child = true := by
  cases p with
  | env => cases h
  | value => exact redactRule_mask h
  | overlay =>
    have hr : (if key = "env" then Rule.enter .env else .enter .value) = .mask := h
    split_ifs at hr
  | pair =>
    have hr : (if key = "value" then Rule.hide else redactRule key child) = .mask := h
    split_ifs at hr
    exact redactRule_mask hr

/-- Redacting a value in any of its places changes nothing the second time. -/
theorem settles (p : Place) (v : Json) :
    walk redaction p (walk redaction p v) = walk redaction p v := by
  induction v using Json.tree_induction generalizing p with
  | null | bool | num => rfl
  | str text =>
    cases p with
    | overlay | env => rfl
    | value | pair =>
      show walk redaction _ (if beginsPem text then mask else .str text) =
          if beginsPem text then mask else .str text
      split_ifs with hpem
      · rfl
      · exact if_neg hpem
  | arr items ih =>
    rw [walk_arr, walk_arr, map_map]
    exact congrArg _ (map_congr_left fun item hit => ih item hit _)
  | obj map ih =>
    rw [walk_obj, walk_obj, Fields.mapValues_mapValues]
    refine congrArg _ (Fields.mapValues_congr fun member hm => ?_)
    cases hr : redaction.rule p member.1 member.2 with
    | hide => rw [member_hide hr, member_hide (redaction_hide hr _), hide_hide]
    | mask =>
      have hs := redaction_mask hr
      rw [isSecret, and_eq_true, not_eq_true'] at hs
      have hma : isScalar mask = isScalar member.2 := hs.2.symm
      rw [member_mask hr, member_mask ((redaction_congr hma).trans hr)]
    | enter q =>
      rw [member_enter hr, member_enter ((redaction_congr isScalar_redacted).trans hr),
        ih member hm q]

end Redaction

/-! ## What the overlays hold -/

mutual

/-- No overlay that is looked at holds what a secret key would hide elsewhere. -/
def clearAt : Place → Json → Bool
  | p, .obj map => membersClear p map
  | p, .arr items => itemsClear (redaction.item p) items
  | _, _ => true

def membersClear : Place → List (String × Json) → Bool
  | _, [] => true
  | p, (key, child) :: map =>
    (!(p == .overlay && isSecret key child) && match redaction.rule p key child with
      | .enter q => clearAt q child
      | _ => true) && membersClear p map

def itemsClear : Place → List Json → Bool
  | _, [] => true
  | p, item :: items => clearAt p item && itemsClear p items

end

def overlaysClear (frame : Json) : Bool := clearAt .value frame

def memberClear (p : Place) (key : String) (child : Json) : Bool :=
  !(p == .overlay && isSecret key child) && match redaction.rule p key child with
    | .enter q => clearAt q child
    | _ => true

theorem clearAt_obj :
    clearAt p (.obj map) = map.all fun member => memberClear p member.1 member.2 := by
  rw [clearAt]
  induction map with
  | nil => rfl
  | cons member map ih => exact congrArg _ ih

theorem clearAt_arr : clearAt p (.arr items) = items.all (clearAt (redaction.item p)) := by
  rw [clearAt]
  induction items with
  | nil => rfl
  | cons item items ih => exact congrArg _ ih

theorem memberClear_enter (hr : redaction.rule p key child = .enter q)
    (h : memberClear p key child = true) : clearAt q child = true := by
  rw [memberClear, hr, and_eq_true] at h
  exact h.2

theorem not_secret_of_overlay (h : memberClear .overlay key child = true) :
    isSecret key child = false := by
  rw [memberClear, and_eq_true, not_eq_true'] at h
  exact h.1

/-! ## What stays readable -/

/-- No string but the mask, no object and no array stands under a secret key. -/
def SecretsMasked (v : Json) : Prop :=
  v.EveryField fun key child => secretKey key = true → isScalar child = true ∨ child = mask

/-- The members of an environment and the values of its pairs are hidden. -/
structure EnvHidden (env : Json) : Prop where
  members : ∀ map, env = .obj map → ∀ member ∈ map, member.2 = .null ∨ member.2 = mask
  pairs : ∀ entries, env = .arr entries → ∀ pair, .obj pair ∈ entries →
    ∀ member ∈ pair, member.1 = "value" → member.2 = .null ∨ member.2 = mask

def EnvsMasked (v : Json) : Prop := v.EveryField fun key child => key = "env" → EnvHidden child

section Masked

variable {P : String → Json → Prop}

/-- Where the overlays are clear, a property of the redacted members holds of all of them. -/
theorem every_redacted (p : Place)
    (hP : ∀ p key child, memberClear p key child = true → P key (redaction.member p key child))
    (hc : clearAt p v = true) : (walk redaction p v).EveryField P := by
  induction v using Json.tree_induction generalizing p with
  | null | bool | num => exact Json.everyField_leaf rfl
  | str text =>
    refine Json.everyField_leaf ?_
    cases p with
    | overlay | env => rfl
    | value | pair =>
      show (if beginsPem text then mask else Json.str text).isLeaf = true
      split_ifs <;> rfl
  | arr items ih =>
    rw [clearAt_arr, all_eq_true] at hc
    rw [walk_arr, Json.everyField_arr]
    exact forall_mem_map.mpr fun item hit => ih item hit _ (hc item hit)
  | obj map ih =>
    rw [clearAt_obj, all_eq_true] at hc
    rw [walk_obj, Json.everyField_obj]
    refine forall_mem_map.mpr fun member hm => ?_
    have ht := hc member hm
    refine ⟨hP p member.1 member.2 ht, ?_⟩
    cases hr : redaction.rule p member.1 member.2 with
    | mask =>
      rw [member_mask hr]
      exact Json.everyField_leaf rfl
    | hide =>
      rw [member_hide hr]
      exact Json.everyField_leaf (isLeaf_hide member.2)
    | enter q =>
      rw [member_enter hr]
      exact ih member hm q (memberClear_enter hr ht)

theorem EnvHidden.leaf (h : v.isLeaf = true) : EnvHidden v := by
  refine ⟨fun map hmap => ?_, fun entries he => ?_⟩
  · rw [hmap] at h
    cases h
  · rw [he] at h
    cases h

theorem envHidden_redactEnv (v : Json) : EnvHidden (redactEnv v) := by
  rw [redactEnv]
  cases v with
  | null | bool | num | str => exact .leaf rfl
  | obj map =>
    rw [walk_obj]
    refine ⟨fun map' hmap => ?_, fun _ h => Json.noConfusion h⟩
    cases hmap
    exact forall_mem_map.mpr fun member _ => hide_masked member.2
  | arr entries =>
    rw [walk_arr]
    refine ⟨fun _ h => Json.noConfusion h, fun entries' hen pair hp member hm hkey => ?_⟩
    cases hen
    obtain ⟨entry, -, he⟩ := mem_map.mp hp
    cases entry with
    | obj map =>
      rw [walk_obj] at he
      cases he
      obtain ⟨old, -, rfl⟩ := mem_map.mp hm
      have hr : redaction.rule .pair old.1 old.2 = .hide := if_pos hkey
      rw [show redaction.item .env = .pair from rfl, member_hide hr]
      exact hide_masked old.2
    | null | bool | num => cases he
    | arr items => cases he.symm.trans walk_arr
    | str text =>
      have ht : (if beginsPem text then mask else Json.str text) = .obj pair := he
      split_ifs at ht
      all_goals cases ht

theorem envsMasked_redact (hc : overlaysClear v = true) : EnvsMasked (redact v) := by
  refine every_redacted .value (fun p key child _ hkey => ?_) hc
  subst hkey
  cases p with
  | env => exact .leaf (isLeaf_hide child)
  | value | overlay | pair => exact envHidden_redactEnv child

theorem secretsMasked_redact (hc : overlaysClear v = true) : SecretsMasked (redact v) := by
  refine every_redacted .value (fun p key child ht hkey => ?_) hc
  cases hr : redaction.rule p key child with
  | mask => exact .inr (member_mask hr)
  | hide =>
    rw [member_hide hr]
    exact (hide_masked child).imp (fun h => by rw [h]; rfl) id
  | enter q =>
    -- only a scalar is left under a secret key
    have hs : isSecret key child = false := by
      have henv : key ≠ "env" := fun h => absurd (h ▸ hkey) (by decide)
      have hp : key ≠ "profileEnv" := fun h => absurd (h ▸ hkey) (by decide)
      have hv (h : redactRule key child = .enter q) : isSecret key child = false := by
        rw [redactRule, if_neg hp, if_neg henv] at h
        split_ifs at h with hno
        exact eq_false_iff.mpr hno
      cases p with
      | env => cases hr
      | overlay => exact not_secret_of_overlay ht
      | value => exact hv hr
      | pair =>
        have hpa : (if key = "value" then Rule.hide else redactRule key child) = .enter q := hr
        split_ifs at hpa
        exact hv hpa
    rw [isSecret, hkey, Bool.true_and, not_eq_false'] at hs
    rw [member_enter hr, walk_scalar hs]
    exact .inl hs

end Masked

/-! ## Frames that differ in protected values only -/

def concealRule (key : String) (child : Json) : Rule :=
  if key = "env" then .enter .env else if isSecret key child then .mask else .enter .value

/-- What is left of a frame without its protected values: what a secret key would hide, the
members of an environment and the values of its pairs. An overlay is a value as any other. -/
def concealment : Scheme where
  rule p key child :=
    match p with
    | .value | .overlay => concealRule key child
    | .env => .hide
    | .pair => if key = "value" then .hide else concealRule key child
  item p :=
    match p with
    | .env => .pair
    | .value | .overlay | .pair => .value
  text _ text := .str text

def conceal (frame : Json) : Json := walk concealment .value frame

section Conceal

variable {w c : Json}

theorem isScalar_concealed : isScalar (walk concealment p v) = isScalar v :=
  isScalar_walk fun _ => rfl

theorem walk_overlay (v : Json) : walk concealment .overlay v = walk concealment .value v := by
  cases v with
  | obj map => rw [walk_obj, walk_obj]; rfl
  | arr items => rw [walk_arr, walk_arr]; rfl
  | null | bool | num | str => rfl

theorem concealed_cases (h : walk concealment p w = walk concealment p v) :
    (v.isLeaf = true ∧ w = v) ∨ (∃ items items', v = .arr items ∧ w = .arr items' ∧
      items'.map (walk concealment (concealment.item p)) =
        items.map (walk concealment (concealment.item p))) ∨
    ∃ map map' : Fields, v = .obj map ∧ w = .obj map' ∧
      map'.mapValues (concealment.member p) = map.mapValues (concealment.member p) := by
  cases v with
  | null | bool | num | str => cases w <;> first | exact .inl ⟨rfl, h⟩ | cases h
  | arr items =>
    cases w with
    | arr items' =>
      rw [walk_arr, walk_arr] at h
      exact .inr (.inl ⟨items, items', rfl, rfl, Json.arr.inj h⟩)
    | null | bool | num | str | obj => cases h
  | obj map =>
    cases w with
    | obj map' =>
      rw [walk_obj, walk_obj] at h
      exact .inr (.inr ⟨map, map', rfl, rfl, Json.obj.inj h⟩)
    | null | bool | num | str | arr => cases h

theorem member_conceal (henv : key ≠ "env") (x : Json) :
    concealment.member .value key x =
      if isSecret key x then mask else walk concealment .value x := by
  have hr : concealment.rule .value key x = if isSecret key x then .mask else .enter .value :=
    if_neg henv
  rw [Scheme.member, hr]
  split_ifs <;> rfl

/-- Concealed alike, two values of a member are both hidden or else alike themselves. -/
theorem concealMember_eq (henv : key ≠ "env")
    (h : concealment.member .value key c = concealment.member .value key child) :
    isSecret key c = isSecret key child ∧
      (isSecret key child = false → walk concealment .value c = walk concealment .value child) := by
  -- the mask is no scalar, so what is concealed to it stands under a key that is not secret
  have hm (x y : Json) (hx : isSecret key x = true) (hy : isSecret key y = false)
      (hxy : mask = walk concealment .value y) : False := by
    have hs : isScalar y = false := (isScalar_concealed.symm.trans (congrArg isScalar hxy.symm))
    rw [isSecret, and_eq_true] at hx
    rw [isSecret, hx.1, hs] at hy
    cases hy
  rw [member_conceal henv, member_conceal henv] at h
  cases hc : isSecret key c <;> cases hch : isSecret key child
  all_goals rw [hc, hch] at h
  · exact ⟨rfl, fun _ => h⟩
  · exact (hm child c hch hc h.symm).elim
  · exact (hm c child hc hch h).elim
  · exact ⟨rfl, nofun⟩

theorem hide_of_conceal (h : walk concealment .value w = walk concealment .value v) :
    hide w = hide v := by
  rcases concealed_cases h with ⟨-, rfl⟩ | ⟨_, _, rfl, rfl, -⟩ | ⟨_, _, rfl, rfl, -⟩ <;> rfl

end Conceal

section Determined

variable {α β γ : Type} {f : α → β} {g : α → γ} {l l' : List α}

theorem map_determines (hmap : l'.map f = l.map f) (h : ∀ a ∈ l, ∀ b, f b = f a → g b = g a) :
    l'.map g = l.map g := by
  induction l generalizing l' with
  | nil => rw [map_eq_nil_iff.mp hmap]
  | cons a l ih =>
    obtain ⟨b, l'', rfl, hb, hr⟩ := map_eq_cons_iff.mp hmap
    rw [map_cons, map_cons, h a mem_cons_self b hb,
      ih hr fun a' ha' => h a' (mem_cons_of_mem _ ha')]

theorem mapValues_determines {f g : String → Json → Json} {map' : Fields}
    (hmap : map'.mapValues f = map.mapValues f)
    (h : ∀ member ∈ map, ∀ child, f member.1 child = f member.1 member.2 →
      g member.1 child = g member.1 member.2) : map'.mapValues g = map.mapValues g := by
  refine map_determines hmap fun member hm other ho => ?_
  obtain ⟨hkey, hv⟩ := Prod.mk.inj ho
  rw [hkey] at hv ⊢
  rw [h member hm other.2 hv]

theorem exists_differs {a : α} (a' : α) (ha : a ∈ l) (hf : f a' = f a) (hg : g a' ≠ g a) :
    ∃ l' : List α, l'.map f = l.map f ∧ l'.map g ≠ l.map g := by
  obtain ⟨before, after, rfl⟩ := append_of_mem ha
  refine ⟨before ++ a' :: after, ?_, ?_⟩
  · rw [map_append, map_append, map_cons, map_cons, hf]
  · rw [map_append, map_append, map_cons, map_cons]
    exact fun h => hg (List.cons.inj (append_cancel_left h)).1

theorem exists_differs_field {f g : String → Json → Json} {member : String × Json}
    (hm : member ∈ map) (hf : f member.1 child = f member.1 member.2)
    (hg : g member.1 child ≠ g member.1 member.2) :
    ∃ map' : Fields, map'.mapValues f = map.mapValues f ∧ map'.mapValues g ≠ map.mapValues g := by
  refine exists_differs (member.1, child) hm ?_ ?_
  · exact congrArg (member.1, ·) hf
  · exact fun h => hg (Prod.mk.inj h).2

end Determined

section Factors

variable {w c : Json}

theorem pair_of_value (h : walk concealment .value w = walk concealment .value v) :
    walk concealment .pair w = walk concealment .pair v := by
  rcases concealed_cases h with ⟨-, rfl⟩ | ⟨items, items', rfl, rfl, hit⟩ | ⟨map, map',
    rfl, rfl, hmap⟩
  · rfl
  · rw [walk_arr, walk_arr]
    exact congrArg _ hit
  · rw [walk_obj, walk_obj]
    refine congrArg _ (mapValues_determines hmap fun member _ child hc => ?_)
    by_cases hv : member.1 = "value"
    · have hr (x : Json) : concealment.rule .pair member.1 x = .hide := if_pos hv
      rw [hv] at hc
      rw [member_hide (hr _), member_hide (hr _)]
      exact hide_of_conceal hc
    · have hr (x : Json) : concealment.member .pair member.1 x =
          concealment.member .value member.1 x := by
        rw [Scheme.member, Scheme.member,
          show concealment.rule .pair member.1 x = concealRule member.1 x from if_neg hv]
        rfl
      rw [hr, hr, hc]

/-- In a place, what a value conceals to determines what it is redacted to. -/
def Follows (p : Place) (v : Json) : Prop :=
  clearAt p v = true → ∀ w, walk concealment p w = walk concealment p v →
    walk redaction p w = walk redaction p v

theorem redactRule_of_ne (hp : key ≠ "profileEnv") (henv : key ≠ "env") (x : Json) :
    redactRule key x = if isSecret key x then .mask else .enter .value := by
  rw [redactRule, if_neg hp, if_neg henv]

theorem follows_member (ih : ∀ q, Follows q child) (hcl : memberClear .value key child = true)
    (hc : concealment.member .value key c = concealment.member .value key child) :
    redaction.member .value key c = redaction.member .value key child := by
  by_cases hp : key = "profileEnv"
  · subst hp
    have ha := (concealMember_eq (by decide) hc).2 rfl
    refine ih .overlay (memberClear_enter rfl hcl) c ?_
    rw [walk_overlay, walk_overlay, ha]
  by_cases henv : key = "env"
  · subst henv
    exact ih .env (memberClear_enter rfl hcl) c hc
  · obtain ⟨hsa, ha⟩ := concealMember_eq henv hc
    have hr (x : Json) : redaction.rule .value key x = _ := redactRule_of_ne hp henv x
    cases hs : isSecret key child with
    | true =>
      rw [hs] at hsa
      rw [member_mask ((hr _).trans (if_pos hsa)), member_mask ((hr _).trans (if_pos hs))]
    | false =>
      rw [hs] at hsa
      have he : redaction.rule .value key child = .enter .value :=
        (hr _).trans (if_neg (eq_false_iff.mp hs))
      rw [member_enter ((hr _).trans (if_neg (eq_false_iff.mp hsa))), member_enter he]
      exact ih .value (memberClear_enter he hcl) c (ha hs)

theorem follows_overlay (ih : ∀ q, Follows q child) (hcl : memberClear .overlay key child = true)
    (hc : concealment.member .value key c = concealment.member .value key child) :
    redaction.member .overlay key c = redaction.member .overlay key child := by
  by_cases henv : key = "env"
  · subst henv
    exact ih .env (memberClear_enter rfl hcl) c hc
  · have hr (x : Json) : redaction.rule .overlay key x = .enter .value := if_neg henv
    rw [member_enter (hr c), member_enter (hr child)]
    exact ih .value (memberClear_enter (hr child) hcl) c
      ((concealMember_eq henv hc).2 (not_secret_of_overlay hcl))

theorem pair_member (S : Scheme) (hr : S.rule .pair key child = S.rule .value key child) :
    S.member .pair key child = S.member .value key child := by
  rw [Scheme.member, Scheme.member, hr]

theorem follows (p : Place) (v : Json) : Follows p v := by
  induction v using Json.tree_induction generalizing p with
  | null | bool | num | str =>
    intro _ w hw
    rcases concealed_cases hw with ⟨-, rfl⟩ | ⟨_, _, hc, -⟩ | ⟨_, _, hc, -⟩
    · rfl
    · cases hc
    · cases hc
  | arr items ih =>
    intro hcl w hw
    obtain ⟨items', rfl, hit⟩ : ∃ items', w = .arr items' ∧
        items'.map (walk concealment (redaction.item p)) =
        items.map (walk concealment (redaction.item p)) := by
      rcases concealed_cases hw with ⟨hl, -⟩ | ⟨_, items', hv, rfl, hit⟩ | ⟨_, _, hc, -⟩
      · cases hl
      · cases hv
        refine ⟨items', rfl, ?_⟩
        cases p with
        | overlay => exact map_determines hit fun _ _ _ => pair_of_value
        | value | env | pair => exact hit
      · cases hc
    rw [clearAt_arr, all_eq_true] at hcl
    rw [walk_arr, walk_arr]
    exact congrArg _ (map_determines hit fun item hite => ih item hite _ (hcl item hite))
  | obj map ih =>
    intro hcl w hw
    rcases concealed_cases hw with ⟨hl, -⟩ | ⟨_, _, hc, -⟩ | ⟨_, map', hv, rfl, hmap⟩
    · cases hl
    · cases hc
    cases hv
    rw [clearAt_obj, all_eq_true] at hcl
    rw [walk_obj, walk_obj]
    refine congrArg _ (mapValues_determines hmap fun member hm child hch => ?_)
    have ht := hcl member hm
    cases p with
    | value => exact follows_member (ih member hm) ht hch
    | overlay => exact follows_overlay (ih member hm) ht hch
    | env => exact hch
    | pair =>
      by_cases hva : member.1 = "value"
      · have hh (S : Scheme) (h : ∀ x, S.rule .pair member.1 x = .hide) (x : Json) :=
          member_hide (h x)
        rw [hh concealment fun x => if_pos hva, hh concealment fun x => if_pos hva] at hch
        rw [hh redaction fun x => if_pos hva, hh redaction fun x => if_pos hva, hch]
      · have hc' : memberClear .value member.1 member.2 = true := by
          rwa [memberClear,
            show redaction.rule .pair member.1 member.2 =
              redaction.rule .value member.1 member.2 from
            if_neg hva] at ht
        rw [pair_member concealment (if_neg hva), pair_member concealment (if_neg hva)] at hch
        rw [pair_member redaction (if_neg hva), pair_member redaction (if_neg hva)]
        exact follows_member (ih member hm) hc' hch

end Factors

theorem exists_other_string (v : Json) : ∃ text, redact (.str text) ≠ redact v := by
  by_cases h : redact v = mask
  · refine ⟨"x", fun hx => ?_⟩
    have hm : Json.str "x" = .str "***" := hx.trans h
    exact absurd (Json.str.inj hm) (by decide)
  · exact ⟨"***", fun hx => h hx.symm⟩

/-- The place a value is concealed in. -/
def plain : Place → Place
  | .env => .env
  | .value | .overlay | .pair => .value

/-- In a place, a value that holds a secret in an overlay differs from one that is redacted
differently in protected values only. -/
def Exposes (p : Place) (v : Json) : Prop :=
  clearAt p v = false → ∃ w, walk concealment (plain p) w = walk concealment (plain p) v ∧
      walk redaction p w ≠ walk redaction p v

theorem plain_of_enter (hp : plain p = .value) (h : redaction.rule p key child = .enter q) :
    if key = "env" then q = .env else plain q = .value := by
  have hr (h : redactRule key child = .enter q) : if key = "env" then q = .env
      else plain q = .value := by
    rw [redactRule] at h
    split_ifs at h ⊢ with hpr henv
    · exact absurd (hpr.symm.trans henv) (by decide)
    · cases h; rfl
    · cases h; rfl
    · cases h; rfl
  cases p with
  | env => cases hp
  | value => exact hr h
  | overlay =>
    have ho : (if key = "env" then Rule.enter .env else .enter .value) = .enter q := h
    split_ifs at ho ⊢
    · cases ho; rfl
    · cases ho; rfl
  | pair =>
    have hpa : (if key = "value" then Rule.hide else redactRule key child) = .enter q := h
    split_ifs at hpa
    exact hr hpa

theorem exposes_member (hp : plain p = .value) (ih : ∀ q, Exposes q child)
    (hcl : memberClear p key child = false) :
    ∃ c, concealment.member .value key c = concealment.member .value key child ∧
      redaction.member p key c ≠ redaction.member p key child := by
  by_cases ho : (p == .overlay && isSecret key child) = true
  · rw [and_eq_true, beq_iff_eq] at ho
    obtain ⟨rfl, hse⟩ := ho
    have hkey := (and_eq_true .. ▸ hse : secretKey key = true ∧ _).1
    have henv : key ≠ "env" := fun h => absurd (h ▸ hkey) (by decide)
    obtain ⟨text, ht⟩ := exists_other_string child
    have hr (x : Json) : redaction.rule .overlay key x = .enter .value := if_neg henv
    refine ⟨.str text, ?_, ?_⟩
    · have hstr : isSecret key (.str text) = true := (congrArg (· && true) hkey)
      rw [member_conceal henv, member_conceal henv, if_pos hse, if_pos hstr]
    · rwa [member_enter (hr _), member_enter (hr _)]
  · rw [memberClear, eq_false_iff.mpr ho] at hcl
    cases hr : redaction.rule p key child with
    | mask | hide => rw [hr] at hcl; cases hcl
    | enter q =>
      rw [hr] at hcl
      obtain ⟨w, hc, hre⟩ := ih q hcl
      have hs : isScalar w = isScalar child :=
        isScalar_concealed.symm.trans ((congrArg isScalar hc).trans isScalar_concealed)
      have hpl := plain_of_enter hp hr
      refine ⟨w, ?_, ?_⟩
      · split_ifs at hpl with henv
        · subst henv hpl
          exact hc
        · rw [hpl] at hc
          rw [member_conceal henv, member_conceal henv, isSecret, isSecret, hs, hc]
      · rwa [member_enter ((redaction_congr hs).trans hr), member_enter hr]

theorem exposes (p : Place) (v : Json) : Exposes p v := by
  induction v using Json.tree_induction generalizing p with
  | null | bool | num | str => exact nofun
  | arr items ih =>
    intro hc
    rw [clearAt_arr, all_eq_false] at hc
    obtain ⟨item, hit, hc⟩ := hc
    obtain ⟨w, hco, hr⟩ := ih item hit _ (eq_false_iff.mpr hc)
    have hpl : plain (redaction.item p) = .value := by cases p <;> rfl
    obtain ⟨items', hc', hr'⟩ := exists_differs w hit hco hr
    refine ⟨.arr items', ?_, ?_⟩
    · rw [walk_arr, walk_arr]
      refine congrArg _ ?_
      cases p with
      | env => exact map_determines hc' fun _ _ _ => pair_of_value
      | value | overlay | pair => exact hc'
    · rw [walk_arr, walk_arr]
      exact fun h => hr' (Json.arr.inj h)
  | obj map ih =>
    intro hc
    rw [clearAt_obj, all_eq_false] at hc
    obtain ⟨member, hm, hc⟩ := hc
    have hp : plain p = .value := by
      cases p with
      | env => exact absurd rfl hc
      | value | overlay | pair => rfl
    obtain ⟨c, hco, hr⟩ := exposes_member hp (ih member hm) (eq_false_iff.mpr hc)
    obtain ⟨map', hc', hr'⟩ := exists_differs_field hm hco hr
    refine ⟨.obj map', ?_, ?_⟩
    · rw [hp, walk_obj, walk_obj, hc']
    · rw [walk_obj, walk_obj]
      exact fun h => hr' (Json.obj.inj h)

structure Sealed (frame : Json) : Prop where
  secrets : SecretsMasked (redact frame)
  envs : EnvsMasked (redact frame)
  settled : redact (redact frame) = redact frame
  determined : ∀ other, conceal other = conceal frame → redact other = redact frame

/-- The redaction keeps its promise for the frames whose overlays hold no secret of their own,
and for no others. -/
theorem frame_sealed_iff (frame : Json) : Sealed frame ↔ overlaysClear frame = true := by
  constructor
  · intro h
    by_contra hc
    rw [not_eq_true] at hc
    obtain ⟨w, hw, hd⟩ := exposes .value frame hc
    exact hd (h.determined w hw)
  · intro h
    exact ⟨secretsMasked_redact h, envsMasked_redact h, settles .value frame,
      follows .value frame h⟩

/-- A launch whose overlay also carries a token of its own. -/
def launchFrame : Json :=
  .obj [("type", .str "launch"), ("agentId", .str "a1"), ("profileEnv",
      .obj [("providerRef", .str "claude-code@work"), ("apiToken", .str "tok-secret")])]

/-- The token of an overlay is kept as it is. -/
theorem overlay_token_readable : ¬ Sealed launchFrame := by
  intro h
  have hm := h.secrets [("providerRef", .str "claude-code@work"), ("apiToken", .str "tok-secret")]
    (.field (mem_cons_of_mem _ (mem_cons_of_mem _ mem_cons_self)) .self)
    ("apiToken", .str "tok-secret") (mem_cons_of_mem _ mem_cons_self) (by decide)
  rcases hm with hs | hma
  · cases hs
  · exact absurd (Json.str.inj hma) (by decide)

end Intentd.LinkRedaction
