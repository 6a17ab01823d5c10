import Intentd.KeysetWalks
import Intentd.ListPages
import Mathlib.Data.List.Induction
import Mathlib.Data.Prod.Lex
import Mathlib.Data.String.Basic

/-!
# Walks over the comment threads of a note

Threads are listed latest activity first, and a reply moves its thread. So a walk runs in rounds:
a round serves the threads with an activity in a window, which ends at the newest activity when
the round begins, and a thread that gains activity meanwhile is left to the next round.

That needs the reply to be later than the end of the window. A reply at the very time the window
ends at puts its thread into the window, and if the walk is past that place the thread is in no
round. What a walk serves is complete when no reply goes to such a place.
-/
namespace Intentd.CommentWalks
open JsonValues KeysetWalks ListPages List Option

/-- A thread as the list shows it. The other fields are kept as they are serialized. -/
structure Thread where
  threadId : String
  lastActivity : String
  heading : Fields
  latest : Fields
  comments : Option (List Json)

def Thread.toValue (t : Thread) : Json :=
  .obj ([("threadId", .str t.threadId)] ++ t.heading ++ [("lastActivity", .str t.lastActivity)] ++
    t.latest ++ (t.comments.map fun comments => ("comments", Json.arr comments)).toList)

def keepComments (room : ℕ) : ℕ → List Json → List Json
  | _, [] => []
  | used, comment :: comments =>
    if room < used + (jsonLen comment + 1) then []
    else comment :: keepComments room (used + (jsonLen comment + 1)) comments

def shrinkThread (t : Thread) (room : ℕ) : Json :=
  let row := { t with comments := none }.toValue
  match t.comments with
  | none => row
  | some comments =>
    let used := jsonLen row + jsonLen (.str "comments") + 3 + jsonLen (.str "commentsTruncated") + 8
    (row.insert "comments" (.arr (keepComments room used comments))).insert "commentsTruncated"
      (.bool true)

section Keys

/-- The decimal digits of a number, that many of them. -/
def fixedWidth : ℕ → ℕ → List Char
  | 0, _ => []
  | width + 1, n => Nat.digitChar (n / 10 ^ width % 10) :: fixedWidth width n

variable (parseIso : String → Option ℤ)

/-- The sort key of a time: its nanoseconds since the epoch in 39 digits, moved so that none is
negative, or its text after every such key when it cannot be read. -/
def activityKey (time : String) : String :=
  match parseIso time with
  | some nanos => String.ofList (fixedWidth 39 (nanos + 10 ^ 37).toNat)
  | none => "~" ++ time

abbrev Order := Stringᵒᵈ ×ₗ String

/-- Latest activity first, then by id. -/
def order (key threadId : String) : Order := toLex (OrderDual.toDual key, threadId)

def Thread.key (t : Thread) : String := activityKey parseIso t.lastActivity

def Thread.order (t : Thread) : Order := CommentWalks.order (t.key parseIso) t.threadId

end Keys

/-! ## Pages -/

/-- The window of a round, without its lower and with its upper end, and the last thread served. -/
structure CommentCursor where
  lo : Option String
  hi : String
  atRow : Option (String × String)
deriving DecidableEq

structure CommentCursorKey where
  lo : Option String
  hi : String
  atKey : Option String

section Pages

variable (parseIso : String → Option ℤ) (codec : Codec CursorWire)
  (keyCodec : Codec CommentCursorKey)
variable (c : CommentCursor)

def CommentCursor.contains (t : Thread) : Bool :=
  !(decide (c.hi < t.key parseIso) || c.lo.any fun lo => decide (t.key parseIso ≤ lo)) &&
    match c.atRow with
    | none => true
    | some (key, id) =>
      decide (t.key parseIso < key) || (t.key parseIso == key && decide (id < t.threadId))

def CommentCursor.token (scope : String) : String :=
  pageToken codec scope (keyCodec.encode ⟨c.lo, c.hi, c.atRow.map Prod.fst⟩)
    ((c.atRow.map Prod.snd).getD "*")

def commentListScope (workspaceId noteId : String) : String :=
  "comment.list:" ++ workspaceId ++ ":" ++ noteId

def readCursor (token scope : String) : Except String CommentCursor :=
  match parsePageToken codec token scope with
  | .error e => .error e
  | .ok (key, id) =>
    match keyCodec.decode key with
    | none => .error "invalid nextToken"
    | some key => .ok ⟨key.lo, key.hi, key.atKey.map fun k => (k, id)⟩

def newest (threads : List Thread) : Option String := threads.head?.map (Thread.key parseIso)

/-- Go on to the next round when this one has nothing left. A round that begins so has a thread,
so the loop over this step ends with it. -/
def CommentCursor.advance (threads : List Thread) : CommentCursor :=
  match (newest parseIso threads).filter fun key => decide (c.hi < key) with
  | none => c
  | some newer =>
    if (threads.filter (c.contains parseIso)).isEmpty then ⟨some c.hi, newer, none⟩ else c

def CommentCursor.next (threads window : List Thread) : Option ℕ → Option CommentCursor
  | some i => window[i]?.map fun t => { c with atRow := some (t.key parseIso, t.threadId) }
  | none => ((newest parseIso threads).filter fun key => decide (c.hi < key)).map fun newer =>
    ⟨some c.hi, newer, none⟩

def CommentCursor.serve (threads : List Thread) (limit budget : ℕ) :
    List (Thread × Json) × Option CommentCursor :=
  let c := c.advance parseIso threads
  let window := threads.filter (c.contains parseIso)
  let (rows, last) := takePage limit budget Thread.toValue shrinkThread window
  (rows, c.next parseIso threads window last)

def commentListPage (threads : List Thread) (workspaceId noteId : String) (page : PageRequest)
    (budget : ℕ) : Except String (List (Thread × Json) × Option String) :=
  let scope := commentListScope workspaceId noteId
  let threads := arranged (Thread.order parseIso) threads
  let answer (c : CommentCursor) :=
    let (rows, next) := c.serve parseIso threads page.limit budget
    (rows, next.map fun c => c.token codec keyCodec scope)
  match page.nextToken with
  | none => .ok (answer ⟨none, (newest parseIso threads).getD "", none⟩)
  | some token => (readCursor codec keyCodec token scope).map answer

end Pages

variable {parseIso : String → Option ℤ} {c : CommentCursor} {t : Thread} {threads : List Thread}
  {limit : ℕ}

section PageLaws

theorem order_lt {k k' id id' : String} :
    order k id < order k' id' ↔ k' < k ∨ k' = k ∧ id < id' := by
  rw [order, order, Prod.Lex.toLex_lt_toLex]
  constructor
  · rintro (h | ⟨h, hid⟩)
    · exact .inl h
    · exact .inr ⟨(OrderDual.toDual_inj.mp h).symm, hid⟩
  · rintro (h | ⟨rfl, hid⟩)
    · exact .inl h
    · exact .inr ⟨rfl, hid⟩

/-- Where a thread is when a cursor has not passed it in its round. -/
structure InWindow (parseIso : String → Option ℤ) (c : CommentCursor) (t : Thread) : Prop where
  upper : t.key parseIso ≤ c.hi
  lower : ∀ lo, c.lo = some lo → lo < t.key parseIso
  after : ∀ row, c.atRow = some row → order row.1 row.2 < t.order parseIso

theorem contains_iff : c.contains parseIso t = true ↔ InWindow parseIso c t := by
  have hl : c.lo.any (fun lo => decide (t.key parseIso ≤ lo)) = false ↔ ∀ lo, c.lo = some lo →
      lo < t.key parseIso := by
    cases c.lo <;> simp
  rw [CommentCursor.contains, Bool.and_eq_true, Bool.not_eq_true', Bool.or_eq_false_iff, hl,
    decide_eq_false_iff_not, not_lt]
  constructor
  · rintro ⟨⟨hu, hlo⟩, hat⟩
    refine ⟨hu, hlo, fun row hrow => order_lt.mpr ?_⟩
    rw [hrow] at hat
    simpa using hat
  · intro h
    refine ⟨⟨h.upper, h.lower⟩, ?_⟩
    cases hrow : c.atRow with
    | none => rfl
    | some row =>
      have hlt := order_lt.mp (h.after row hrow)
      simpa using hlt

/-- The walk has still to come to a thread, in this round or in the next. -/
def Pending (parseIso : String → Option ℤ) (c : CommentCursor) (t : Thread) : Prop :=
  c.hi < t.key parseIso ∨ InWindow parseIso c t

section

variable (hsorted : threads.Pairwise fun a b => a.order parseIso < b.order parseIso)
include hsorted

theorem newest_le (ht : t ∈ threads) :
    ∃ key, newest parseIso threads = some key ∧ t.key parseIso ≤ key := by
  cases threads with
  | nil => cases ht
  | cons first rest =>
    refine ⟨first.key parseIso, rfl, ?_⟩
    rcases mem_cons.mp ht with rfl | hr
    · exact le_refl _
    · rcases order_lt.mp ((pairwise_cons.mp hsorted).1 t hr) with hlt | ⟨heq, -⟩
      · exact le_of_lt hlt
      · exact le_of_eq heq

theorem Pending.advance (ht : t ∈ threads) (h : Pending parseIso c t) :
    Pending parseIso (c.advance parseIso threads) t := by
  obtain ⟨key, hne, hle⟩ := newest_le hsorted ht
  rw [CommentCursor.advance, hne]
  by_cases hn : c.hi < key
  · rw [filter_some_pos (by simpa using hn)]
    split_ifs with he
    · right
      have hout : ¬ InWindow parseIso c t := by
        intro hin
        have hmem := mem_filter.mpr ⟨ht, contains_iff.mpr hin⟩
        rw [isEmpty_iff.mp he] at hmem
        cases hmem
      refine ⟨hle, fun lo hlo => ?_, nofun⟩
      cases hlo
      exact h.resolve_right hout
    · exact h
  · rw [filter_some_neg (by simpa using hn)]
    exact h

end

/-- The threads a page takes of the window of its round, and the cursor it leaves. -/
structure Serves (parseIso : String → Option ℤ) (c : CommentCursor) (threads : List Thread)
    (rows : List (Thread × Json)) (next : Option CommentCursor) (rest : List Thread) : Prop where
  window : threads.filter ((c.advance parseIso threads).contains parseIso) =
    rows.map Prod.fst ++ rest
  shows : ∀ row ∈ rows, Shows Thread.toValue shrinkThread row
  inside : rest ≠ [] → ∃ before row, rows = before ++ [row] ∧
    next = some { c.advance parseIso threads with atRow := some (row.1.key parseIso,
      row.1.threadId) }
  through : rest = [] → next = ((newest parseIso threads).filter fun key =>
    decide ((c.advance parseIso threads).hi < key)).map fun newer =>
      ⟨some (c.advance parseIso threads).hi, newer, none⟩

theorem serve_serves (parseIso : String → Option ℤ) (c : CommentCursor) (threads : List Thread)
    (hl : 0 < limit) (budget : ℕ) :
    ∃ rest, Serves parseIso c threads (c.serve parseIso threads limit budget).1
      (c.serve parseIso threads limit budget).2
      rest := by
  have ht := takePage_takes budget Thread.toValue shrinkThread hl
    (threads.filter ((c.advance parseIso threads).contains parseIso))
  rw [CommentCursor.serve]
  dsimp only
  generalize takePage limit budget Thread.toValue shrinkThread _ = taken at ht
  obtain ⟨rows, last⟩ := taken
  obtain ⟨rest, hr, hn⟩ := ht.first
  refine ⟨rest, hr, ht.shows, fun hne => ?_, fun hnil => ?_⟩
  · obtain ⟨i, rfl⟩ := ne_none_iff_exists'.mp fun h => hne (hn.mp h)
    obtain ⟨before, row, rfl, rfl⟩ := ht.more i rfl
    refine ⟨before, row, rfl, ?_⟩
    rw [CommentCursor.next, hr, map_append, append_assoc, getElem?_append_right (by simp)]
    simp
  · rw [hn.mpr hnil, CommentCursor.next]

variable {rows : List (Thread × Json)} {next : Option CommentCursor} {rest : List Thread}
variable (h : Serves parseIso c threads rows next rest)
include h

section

variable (hsorted : threads.Pairwise fun a b => a.order parseIso < b.order parseIso)
include hsorted

/-- What a page leaves of its window is what the next page finds of it. -/
theorem Serves.rest_inWindow (ht : t ∈ rest) : ∃ c', next = some c' ∧ InWindow parseIso c' t := by
  obtain ⟨before, row, hr, hn⟩ := h.inside (ne_nil_of_mem ht)
  have hmem : t ∈ threads.filter ((c.advance parseIso threads).contains parseIso) :=
    h.window ▸ mem_append_right _ ht
  have hw := contains_iff.mp (mem_filter.mp hmem).2
  refine ⟨_, hn, hw.upper, hw.lower, fun last hl => ?_⟩
  cases hl
  have hp := hsorted.filter ((c.advance parseIso threads).contains parseIso)
  rw [h.window, hr, map_append, pairwise_append] at hp
  exact hp.2.2 row.1 (by simp) t ht

/-- The window of the cursor a page leaves inside its round is what the page left of the round. -/
theorem Serves.rest_eq (hr : rest ≠ []) :
    ∃ c', next = some c' ∧ c'.hi = (c.advance parseIso threads).hi ∧
      threads.filter (c'.contains parseIso) = rest := by
  obtain ⟨before, row, hro, hn⟩ := h.inside hr
  refine ⟨_, hn, rfl, ?_⟩
  have hl : rows.map Prod.fst = before.map Prod.fst ++ [row.1] := by
    rw [hro, map_append, map_singleton]
  have hp := hsorted.filter ((c.advance parseIso threads).contains parseIso)
  rw [h.window, hl, pairwise_append, pairwise_append] at hp
  have hrow : InWindow parseIso (c.advance parseIso threads) row.1 := by
    have hmem : row.1 ∈ threads.filter ((c.advance parseIso threads).contains parseIso) := by
      rw [h.window, hl]
      simp
    exact contains_iff.mp (mem_filter.mp hmem).2
  generalize hat :
    ({ c.advance parseIso threads with atRow := some (row.1.key parseIso, row.1.threadId) } :
      CommentCursor)
    = c' at hn ⊢
  have ha : ∀ t, c'.contains parseIso t = true → row.1.order parseIso < t.order parseIso ∧
      (c.advance parseIso threads).contains parseIso t = true := by
    subst hat
    intro t ht
    have hin := contains_iff.mp ht
    have hlt := hin.after _ rfl
    exact ⟨hlt,
      contains_iff.mpr ⟨hin.upper, hin.lower, fun at' hat' => (hrow.after at' hat').trans hlt⟩⟩
  -- the new cursor contains threads of the round only, and of those what comes after the last row
  have hsub : threads.filter (c'.contains parseIso) =
      (threads.filter ((c.advance parseIso threads).contains parseIso)).filter
        (c'.contains parseIso) := by
    rw [List.filter_filter]
    refine filter_congr fun t _ => ?_
    cases hc : c'.contains parseIso t with
    | false => rfl
    | true => rw [(ha t hc).2, Bool.and_self]
  rw [hsub, h.window, filter_append, filter_eq_nil_iff.mpr, nil_append, filter_eq_self]
  · intro t ht
    obtain ⟨c'', hc'', hin⟩ := h.rest_inWindow hsorted ht
    cases hn.symm.trans hc''
    exact contains_iff.mpr hin
  · intro t ht hc
    have hlt := (ha t hc).1
    rw [hl] at ht
    rcases mem_append.mp ht with hb | hs
    · exact absurd (hp.1.2.2 t hb row.1 (mem_singleton.mpr rfl)) (lt_asymm hlt)
    · rw [mem_singleton.mp hs] at hlt
      exact lt_irrefl _ hlt

theorem Serves.pending (ht : t ∈ threads) (hp : Pending parseIso c t) :
    (∃ row ∈ rows, row.1 = t) ∨ ∃ c', next = some c' ∧ Pending parseIso c' t := by
  rcases hp.advance hsorted ht with hl | hin
  · -- it is above the window, so there is a next round
    right
    by_cases hr : rest = []
    · obtain ⟨key, hne, hle⟩ := newest_le hsorted ht
      have hn := h.through hr
      rw [hne, filter_some_pos (by simpa using lt_of_lt_of_le hl hle)] at hn
      refine ⟨_, hn, .inr ⟨hle, fun lo hlo => ?_, nofun⟩⟩
      cases hlo
      exact hl
    · obtain ⟨before, row, -, hn⟩ := h.inside hr
      exact ⟨_, hn, .inl hl⟩
  · have hmem := mem_filter.mpr ⟨ht, contains_iff.mpr hin⟩
    rw [h.window] at hmem
    rcases mem_append.mp hmem with hs | hlef
    · exact .inl (mem_map.mp hs)
    · obtain ⟨c', hn, hw⟩ := h.rest_inWindow hsorted hlef
      exact .inr ⟨c', hn, .inr hw⟩

end

end PageLaws

/-! ## Walks -/

/-- A thread as it was served, with the replies it had got. -/
structure Served where
  thread : Thread
  replies : ℕ
  row : Json

/-- Threads that are read page by page while replies come in. -/
structure Walk where
  threads : List Thread
  replies : String → ℕ
  ask : Option (Option String)
  served : List Served
  refused : Bool

inductive Event where
  /-- A thread becomes what it is with one more reply. -/
  | reply (thread : Thread)
  | opened (thread : Thread)
  | page (limit : ℕ) (limit_pos : 0 < limit) (budget : ℕ)

/-- A note's comment list, with how times are read and tokens are written. -/
structure CommentList where
  parseIso : String → Option ℤ
  codec : Codec CursorWire
  keyCodec : Codec CommentCursorKey
  workspaceId : String
  noteId : String

section Walks

variable (l : CommentList)

def Walk.start (threads : List Thread) : Walk := ⟨threads, fun _ => 0, some none, [], false⟩

def Walk.step (w : Walk) : Event → Walk
  | .reply thread =>
    { w with
      threads := w.threads.map fun t => if t.threadId = thread.threadId then thread else t
      replies := Function.update w.replies thread.threadId (w.replies thread.threadId + 1) }
  | .opened thread =>
    if thread.threadId ∈ w.threads.map Thread.threadId then w
    else { w with threads := w.threads ++ [thread] }
  | .page limit limit_pos budget =>
    match w.ask with
    | none => w
    | some token =>
      match commentListPage l.parseIso l.codec l.keyCodec w.threads l.workspaceId l.noteId
          ⟨limit, limit_pos, token⟩ budget with
      | .error _ => { w with refused := true }
      | .ok (rows, next) =>
        { w with
          ask := next.map some
          served := w.served ++ rows.map fun row => ⟨row.1, w.replies row.1.threadId, row.2⟩ }

def Walk.run (w : Walk) (events : List Event) : Walk := events.foldl (Walk.step l) w

def CommentList.scope : String := commentListScope l.workspaceId l.noteId

def CommentList.token (c : CommentCursor) : String := c.token l.codec l.keyCodec l.scope

/-- The position of a walk: none when it is over, without a cursor before the first page. -/
abbrev Position := Option (Option CommentCursor)

def Position.Pending (parseIso : String → Option ℤ) (t : Thread) : Position → Prop
  | none => False
  | some none => True
  | some (some c) => CommentWalks.Pending parseIso c t

structure At (w : Walk) (pos : Position) : Prop where
  ask : w.ask = pos.map (Option.map l.token)
  ids : (w.threads.map Thread.threadId).Nodup

variable {l} {w : Walk} {pos : Position} {thread : Thread} {token : String}
  {at? : Option CommentCursor} {events : List Event}

theorem readCursor_named (c : CommentCursor) (hn : ∀ row, c.atRow = some row → row.2 ≠ "") :
    readCursor l.codec l.keyCodec (l.token c) l.scope = .ok c := by
  have hid : (c.atRow.map Prod.snd).getD "*" ≠ "" := by
    cases hat : c.atRow with
    | none => decide
    | some row => exact hn row hat
  rw [CommentList.token, CommentCursor.token, readCursor, parsePageToken_pageToken l.codec hid]
  dsimp only
  rw [l.keyCodec.decode_encode]
  obtain ⟨lo, hi, atRow⟩ := c
  cases atRow <;> rfl

theorem readCursor_token (c : CommentCursor) :
    readCursor l.codec l.keyCodec (l.token c) l.scope = .ok c ∨
      ∃ e, readCursor l.codec l.keyCodec (l.token c) l.scope = .error e := by
  by_cases hn : ∀ row, c.atRow = some row → row.2 ≠ ""
  · exact .inl (readCursor_named c hn)
  · right
    push Not at hn
    obtain ⟨row, hat, hid⟩ := hn
    have hp : parsePageToken l.codec (l.token c) l.scope = .error "invalid nextToken" := by
      rw [CommentList.token, CommentCursor.token, parsePageToken, pageToken,
        l.codec.decode_encode, hat]
      exact if_pos (.inr (.inr hid))
    exact ⟨_, by rw [readCursor, hp]⟩

theorem threads_sorted (h : At l w pos) :
    (arranged (Thread.order l.parseIso) w.threads).Pairwise fun a b =>
      a.order l.parseIso < b.order l.parseIso := by
  refine arranged_sorted (pairwise_map.mpr ((pairwise_map.mp h.ids).imp fun hne ho => hne ?_))
  exact congrArg (fun o : Order => (ofLex o).2) ho

theorem At.opened (h : At l w pos) (hin : thread.threadId ∉ w.threads.map Thread.threadId) :
    At l { w with threads := w.threads ++ [thread] } pos := by
  refine ⟨h.ask, ?_⟩
  rw [map_append, map_singleton, ← concat_eq_append]
  exact h.ids.concat hin

inductive From (l : CommentList) (w : Walk) : Option CommentCursor → CommentCursor → Prop
  | first : From l w none
      ⟨none, (newest l.parseIso (arranged (Thread.order l.parseIso) w.threads)).getD "", none⟩
  | cursor (c : CommentCursor) : From l w (some c) c

/-- What an event does to a walk: a page call is refused or serves a page, or the event changes
the threads. -/
inductive Pages (l : CommentList) (w : Walk) (at? : Option CommentCursor) (w' : Walk) : Prop
  | refused (h : w' = { w with refused := true })
  | served {c : CommentCursor} {rows : List (Thread × Json)} {next : Option CommentCursor}
      {rest : List Thread} (hfrom : From l w at? c)
        (hserves : Serves l.parseIso c (arranged (Thread.order l.parseIso) w.threads)
          rows next rest)
      (h : w' = { w with
        ask := (next.map l.token).map some
        served := w.served ++ rows.map fun row => ⟨row.1, w.replies row.1.threadId, row.2⟩ })

variable (l) in
def Walk.take (w : Walk) (c : CommentCursor) (limit budget : ℕ) : Walk :=
  { w with
    ask := ((c.serve l.parseIso (arranged (Thread.order l.parseIso) w.threads) limit budget).2.map
      l.token).map some
    served := w.served ++
      (c.serve l.parseIso (arranged (Thread.order l.parseIso) w.threads) limit budget).1.map
        fun row => ⟨row.1, w.replies row.1.threadId, row.2⟩ }

theorem step_first (hask : w.ask = some none) (limit : ℕ) (hl : 0 < limit) (budget : ℕ) :
    w.step l (.page limit hl budget) =
      w.take l ⟨none, (newest l.parseIso (arranged (Thread.order l.parseIso) w.threads)).getD "",
        none⟩ limit budget := by
  rw [Walk.step, hask]
  rfl

theorem step_token (hask : w.ask = some (some token)) (limit : ℕ) (hl : 0 < limit) (budget : ℕ) :
    w.step l (.page limit hl budget) = (readCursor l.codec l.keyCodec token l.scope).toOption.elim
      { w with refused := true } (w.take l · limit budget) := by
  rw [Walk.step, hask]
  dsimp only
  rw [commentListPage]
  dsimp only
  rw [show commentListScope l.workspaceId l.noteId = l.scope from rfl]
  cases readCursor l.codec l.keyCodec token l.scope <;> rfl

theorem page_pages (h : At l w (some at?)) (limit : ℕ) (hl : 0 < limit) (budget : ℕ) :
    Pages l w at? (w.step l (.page limit hl budget)) := by
  have ht (c : CommentCursor) (hf : From l w at? c) : Pages l w at? (w.take l c limit budget) := by
    obtain ⟨rest, hs⟩ :=
      serve_serves l.parseIso c (arranged (Thread.order l.parseIso) w.threads) hl budget
    exact .served hf hs rfl
  cases at? with
  | none =>
    rw [step_first h.ask]
    exact ht _ .first
  | some c =>
    rw [step_token h.ask]
    rcases readCursor_token (l := l) c with hr | ⟨e, hr⟩ <;> rw [hr]
    · exact ht c (.cursor c)
    · exact .refused rfl

/-- The threads of the start among those served, as they were served. -/
def Walk.done (start : List Thread) (w : Walk) : List Thread :=
  (w.served.map Served.thread).filter fun t => decide (t.threadId ∈ start.map Thread.threadId)

/-- What is left of the start at a position, as long as no reply has moved a thread. -/
def Remains (parseIso : String → Option ℤ) (start done : List Thread) : Position → Prop
  | none => done = arranged (Thread.order parseIso) start
  | some none => done = []
  | some (some c) => (∀ t ∈ start, t.key parseIso ≤ c.hi) ∧
      done ++ (arranged (Thread.order parseIso) start).filter (c.contains parseIso) =
        arranged (Thread.order parseIso) start

structure Once (l : CommentList) (start : List Thread) (w : Walk) (pos : Position) : Prop where
  position : At l w pos
  threads : ∃ new, w.threads = start ++ new
  remains : Remains l.parseIso start (w.done start) pos

def Shown (w : Walk) (threadId : String) : Prop :=
  ∃ s ∈ w.served, s.thread.threadId = threadId ∧ s.replies = w.replies threadId

/-- The invariant of a walk over the threads there were at its start. -/
structure Covers (l : CommentList) (start : List Thread) (w : Walk) (pos : Position) : Prop where
  position : At l w pos
  present : ∀ t ∈ start, ∃ t' ∈ w.threads, t'.threadId = t.threadId
  older : ∀ s ∈ w.served, s.replies ≤ w.replies s.thread.threadId
  grows : w.served.Pairwise fun a b => a.thread.threadId = b.thread.threadId → a.replies ≤ b.replies
  covered : pos ≠ none → ∀ t ∈ w.threads, t.threadId ∈ start.map Thread.threadId →
    Shown w t.threadId ∨ pos.Pending l.parseIso t

/-- A reply leaves its thread to a walk that goes on: after the window of the round, or in it and
not yet passed. -/
def Clear (l : CommentList) (w : Walk) : Event → Prop
  | .reply thread => ∀ c, w.ask = some (some (l.token c)) → Pending l.parseIso c thread
  | _ => True

theorem clear_of_read (hask : w.ask = some (some token))
    (hr : readCursor l.codec l.keyCodec token l.scope = .ok c)
    (hp : Pending l.parseIso c thread) : Clear l w (.reply thread) := by
  intro c' hc'
  rw [hask, some_inj, some_inj] at hc'
  rw [hc'] at hr
  rcases readCursor_token (l := l) c' with hok | ⟨e, he⟩
  · cases hok.symm.trans hr
    exact hp
  · cases he.symm.trans hr

variable {start : List Thread}

theorem From.pending (h : At l w pos) (hf : From l w at? c)
    (ht : t ∈ w.threads) (hp : Position.Pending l.parseIso t (some at?)) :
    Pending l.parseIso c t := by
  cases hf with
  | cursor c => exact hp
  | first =>
    obtain ⟨key, hkey, hle⟩ := newest_le (threads_sorted h) (mem_arranged.mpr ht)
    rw [hkey]
    exact .inr ⟨hle, nofun, nofun⟩

/-- After a page every thread was served as it is or is still to come. -/
theorem Covers.page (h : Covers l start w pos) (hpos : pos ≠ none) (hl : 0 < limit) (budget : ℕ) :
    ∃ pos', Covers l start (w.step l (.page limit hl budget)) pos' ∧
      (w.step l (.page limit hl budget)).replies = w.replies ∧
      ∀ t ∈ w.threads, t.threadId ∈ start.map Thread.threadId →
        Shown (w.step l (.page limit hl budget)) t.threadId ∨ pos'.Pending l.parseIso t := by
  obtain ⟨at?, rfl⟩ := ne_none_iff_exists'.mp hpos
  have hpa := page_pages h.position limit hl budget
  generalize w.step l (.page limit hl budget) = w' at hpa ⊢
  cases hpa with
  | refused heq =>
    subst heq
    exact ⟨some at?, { h with position := ⟨h.position.ask, h.position.ids⟩ }, rfl, h.covered hpos⟩
  | @served c rows next rest hf hse heq =>
    have hc : ∀ t ∈ w.threads, t.threadId ∈ start.map Thread.threadId →
        Shown w' t.threadId ∨ Position.Pending l.parseIso t (next.map some) := by
      subst heq
      intro t ht hst
      rcases h.covered hpos t ht hst with ⟨s, hs, hid, hr⟩ | hp
      · exact .inl ⟨s, mem_append_left _ hs, hid, hr⟩
      · rcases hse.pending (threads_sorted h.position) (mem_arranged.mpr ht)
          (hf.pending h.position ht hp) with ⟨row, hrow, rfl⟩ | ⟨c', rfl, hc'⟩
        · exact .inl ⟨_, mem_append_right _ (mem_map_of_mem hrow), rfl, rfl⟩
        · exact .inr hc'
    subst heq
    refine ⟨next.map some, ⟨⟨?_, h.position.ids⟩, h.present, ?_, ?_, fun _ => hc⟩, rfl, hc⟩
    · cases next <;> rfl
    · exact forall_mem_append.mpr ⟨h.older, forall_mem_map.mpr fun _ _ => Nat.le_refl _⟩
    · refine pairwise_append.mpr ⟨h.grows, ?_, fun a ha b hb hid => ?_⟩
      · refine pairwise_map.mpr (pairwise_of_forall fun a b hid => ?_)
        rw [hid]
      · obtain ⟨row, -, rfl⟩ := mem_map.mp hb
        rw [← hid]
        exact h.older a ha

theorem replaced_id (thread t : Thread) :
    (if t.threadId = thread.threadId then thread else t).threadId = t.threadId := by
  split_ifs with h
  · exact h.symm
  · rfl

theorem le_update (replies : String → ℕ) (threadId other : String) :
    replies other ≤ Function.update replies threadId (replies threadId + 1) other := by
  by_cases h : other = threadId
  · subst h
    rw [Function.update_self]
    exact Nat.le_succ _
  · rw [Function.update_of_ne h]

theorem Covers.step (h : Covers l start w pos) (event : Event) (hcl : Clear l w event) :
    ∃ pos', Covers l start (w.step l event) pos' := by
  cases event with
  | page limit hl budget =>
    by_cases hpos : pos = none
    · subst hpos
      refine ⟨none, ?_⟩
      rw [Walk.step, h.position.ask]
      exact h
    · obtain ⟨pos', hc, -⟩ := h.page hpos hl budget
      exact ⟨pos', hc⟩
  | opened thread =>
    refine ⟨pos, ?_⟩
    rw [Walk.step]
    split_ifs with hin
    · exact h
    · refine ⟨h.position.opened hin, fun t ht => ?_, h.older, h.grows, fun hpos t ht hst => ?_⟩
      · obtain ⟨t', ht', hid⟩ := h.present t ht
        exact ⟨t', mem_append_left _ ht', hid⟩
      · rcases mem_append.mp ht with hold | hnew
        · exact h.covered hpos t hold hst
        · -- a new thread is none of those at the start
          rw [mem_singleton.mp hnew] at hst
          obtain ⟨t₀, ht₀, hid₀⟩ := mem_map.mp hst
          obtain ⟨t', ht', hid'⟩ := h.present t₀ ht₀
          exact absurd (hid₀ ▸ hid' ▸ mem_map_of_mem ht') hin
  | reply thread =>
    refine ⟨pos, ⟨⟨h.position.ask, ?_⟩, fun t ht => ?_, fun s hs => ?_, h.grows,
      fun hpos t ht hst => ?_⟩⟩
    · rw [Walk.step, List.map_map]
      exact (map_congr_left fun t _ => replaced_id thread t) ▸ h.position.ids
    · obtain ⟨t', ht', hid⟩ := h.present t ht
      refine ⟨_, mem_map_of_mem ht', ?_⟩
      rw [replaced_id, hid]
    · exact (h.older s hs).trans (le_update _ _ _)
    · obtain ⟨t', ht', rfl⟩ := mem_map.mp ht
      by_cases hid : t'.threadId = thread.threadId
      · right
        rw [if_pos hid]
        cases pos with
        | none => exact absurd rfl hpos
        | some at? =>
          cases at? with
          | none => trivial
          | some c => exact hcl c h.position.ask
      · rw [if_neg hid] at hst ⊢
        refine (h.covered hpos t' ht' hst).imp_left fun ⟨s, hs, hsid, hr⟩ => ⟨s, hs, hsid, ?_⟩
        rw [hr]
        exact (Function.update_of_ne hid _ _).symm

theorem Once.ids (h : Once l start w pos) : (start.map Thread.threadId).Nodup := by
  obtain ⟨new, hnew⟩ := h.threads
  have hids := h.position.ids
  rw [hnew, map_append] at hids
  exact (nodup_append.mp hids).1

theorem Once.filter_arranged (h : Once l start w pos) :
    (arranged (Thread.order l.parseIso) w.threads).filter (fun t =>
      decide (t.threadId ∈ start.map Thread.threadId)) =
      arranged (Thread.order l.parseIso) start := by
  have hat : At l (Walk.start start) (some none) := ⟨rfl, h.ids⟩
  refine List.Perm.eq_of_pairwise' ((threads_sorted h.position).filter _) (threads_sorted hat) ?_
  refine ((perm_insertionSort _ _).filter _).trans
    (List.Perm.trans ?_ (perm_insertionSort _ _).symm)
  obtain ⟨new, hnew⟩ := h.threads
  have hids := h.position.ids
  rw [hnew, map_append, nodup_append] at hids
  rw [hnew, filter_append, filter_eq_self.mpr, filter_eq_nil_iff.mpr, append_nil]
  · intro t ht hin
    exact hids.2.2 _ (of_decide_eq_true hin) _ (mem_map_of_mem ht) rfl
  · exact fun t ht => decide_eq_true (mem_map_of_mem ht)

/-- A round that begins above all threads of the start leaves none of them. -/
theorem Remains.later {done : List Thread} {hi newer : String}
    (hd : done = arranged (Thread.order parseIso) start)
    (hhi : ∀ t ∈ start, t.key parseIso ≤ hi) (hn : hi < newer) :
    Remains parseIso start done (some (some ⟨some hi, newer, none⟩)) := by
  refine ⟨fun t ht => le_of_lt (lt_of_le_of_lt (hhi t ht) hn), ?_⟩
  rw [filter_eq_nil_iff.mpr, append_nil, hd]
  intro t ht hin
  exact absurd ((contains_iff.mp hin).lower hi rfl) (not_lt.mpr (hhi t (mem_arranged.mp ht)))

theorem Remains.advance {done : List Thread}
    (h : Remains parseIso start done (some (some c))) (hs : ∀ t ∈ start, t ∈ threads) :
    Remains parseIso start done (some (some (c.advance parseIso threads))) := by
  rw [CommentCursor.advance]
  cases hn : (newest parseIso threads).filter fun key => decide (c.hi < key) with
  | none => exact h
  | some newer =>
    split_ifs with he
    · refine later ?_ h.1 (of_decide_eq_true (filter_eq_some_iff.mp hn).2)
      rw [← h.2, filter_eq_nil_iff.mpr, append_nil]
      intro t ht hin
      have hmem := mem_filter.mpr ⟨hs t (mem_arranged.mp ht), hin⟩
      rw [isEmpty_iff.mp he] at hmem
      cases hmem
    · exact h

theorem Once.from (h : Once l start w (some at?)) (hf : From l w at? c) :
    Remains l.parseIso start (w.done start) (some (some c)) := by
  cases hf with
  | cursor c => exact h.remains
  | first =>
    obtain ⟨new, hnew⟩ := h.threads
    have hk : ∀ t ∈ start, t.key l.parseIso ≤
        (newest l.parseIso (arranged (Thread.order l.parseIso) w.threads)).getD "" := by
      intro t ht
      obtain ⟨key, hkey, hle⟩ := newest_le (threads_sorted h.position)
        (mem_arranged.mpr (hnew ▸ mem_append_left new ht))
      rw [hkey]
      exact hle
    refine ⟨hk, ?_⟩
    rw [h.remains, nil_append, filter_eq_self]
    intro t ht
    exact contains_iff.mpr ⟨hk t (mem_arranged.mp ht), nofun, nofun⟩

theorem Once.page (h : Once l start w pos) (limit : ℕ) (hli : 0 < limit) (budget : ℕ) :
    ∃ pos', Once l start (w.step l (.page limit hli budget)) pos' := by
  cases pos with
  | none =>
    refine ⟨none, ?_⟩
    rw [Walk.step, h.position.ask]
    exact h
  | some at? =>
    have hpa := page_pages h.position limit hli budget
    generalize w.step l (.page limit hli budget) = w' at hpa ⊢
    cases hpa with
    | refused heq =>
      subst heq
      exact ⟨some at?, ⟨h.position.ask, h.position.ids⟩, h.threads, h.remains⟩
    | @served c rows next rest hfr hse heq =>
      refine ⟨next.map some, ⟨?_, ?_⟩, ?_, ?_⟩
      · subst heq
        cases next <;> rfl
      · exact heq ▸ h.position.ids
      · exact heq ▸ h.threads
      · obtain ⟨new, hnew⟩ := h.threads
        have hst : ∀ t ∈ start, t ∈ arranged (Thread.order l.parseIso) w.threads :=
          fun t ht => mem_arranged.mpr (hnew ▸ mem_append_left new ht)
        obtain ⟨hhi, hre⟩ := (h.from hfr).advance hst
        -- the page and what it leaves, restricted to the threads of the start
        have hwi :=
          congrArg (filter fun t => decide (t.threadId ∈ start.map Thread.threadId)) hse.window
        rw [filter_append, filter_comm, h.filter_arranged] at hwi
        have hdo : w'.done start = w.done start ++ (rows.map Prod.fst).filter fun t =>
              decide (t.threadId ∈ start.map Thread.threadId) := by
          rw [heq, Walk.done, Walk.done, map_append, filter_append, List.map_map]
          rfl
        rw [hwi, ← append_assoc, ← hdo] at hre
        by_cases hres : rest = []
        · rw [hres, filter_nil, append_nil] at hre
          rw [hse.through hres]
          cases hne : (newest l.parseIso (arranged (Thread.order l.parseIso) w.threads)).filter
            fun key => decide
              ((c.advance l.parseIso (arranged (Thread.order l.parseIso) w.threads)).hi < key) with
          | none => exact hre
          | some newer =>
            exact Remains.later hre hhi (of_decide_eq_true (filter_eq_some_iff.mp hne).2)
        · obtain ⟨c', hnex, hhi', hfi⟩ := hse.rest_eq (threads_sorted h.position) hres
          rw [hnex]
          refine ⟨fun t ht => hhi' ▸ hhi t ht, ?_⟩
          rw [← h.filter_arranged, filter_comm, hfi, h.filter_arranged]
          exact hre

theorem Once.step (h : Once l start w pos) (event : Event) (hr : ∀ thread, event ≠ .reply thread) :
    ∃ pos', Once l start (w.step l event) pos' := by
  cases event with
  | reply thread => exact absurd rfl (hr thread)
  | page limit hl budget => exact h.page limit hl budget
  | opened thread =>
    refine ⟨pos, ?_⟩
    rw [Walk.step]
    split_ifs with hin
    · exact h
    · obtain ⟨new, hnew⟩ := h.threads
      refine ⟨h.position.opened hin, ⟨new ++ [thread], ?_⟩, h.remains⟩
      rw [← append_assoc, ← hnew]

theorem run_snoc (w : Walk) (before : List Event) (event : Event) :
    w.run l (before ++ [event]) = (w.run l before).step l event := by
  rw [Walk.run, Walk.run, foldl_append]
  rfl

theorem covers_start (hids : (start.map Thread.threadId).Nodup) :
    Covers l start (.start start) (some none) where
  position := ⟨rfl, hids⟩
  present t ht := ⟨t, ht, rfl⟩
  older s hs := (by cases hs)
  grows := List.Pairwise.nil
  covered _ _ _ _ := .inr trivial

variable (l) in
/-- A property of every step of a run. -/
def Along (P : Walk → Event → Prop) : Walk → List Event → Prop
  | _, [] => True
  | w, event :: events => P w event ∧ Along P (w.step l event) events

theorem Along.snoc {P : Walk → Event → Prop} {before : List Event} {event : Event}
    (h : Along l P w (before ++ [event])) : Along l P w before ∧ P (w.run l before) event := by
  induction before generalizing w with
  | nil => exact ⟨trivial, h.1⟩
  | cons first before ih =>
    obtain ⟨hb, he⟩ := ih h.2
    exact ⟨⟨h.1, hb⟩, he⟩

theorem run_covers (hids : (start.map Thread.threadId).Nodup)
    (hc : Along l (Clear l) (.start start) events) :
    ∃ pos, Covers l start ((Walk.start start).run l events) pos := by
  induction events using reverseRecOn with
  | nil => exact ⟨_, covers_start hids⟩
  | append_singleton before event ih =>
    obtain ⟨pos, hco⟩ := ih hc.snoc.1
    rw [run_snoc]
    exact hco.step event hc.snoc.2

theorem run_once (hids : (start.map Thread.threadId).Nodup)
    (hr : ∀ thread, Event.reply thread ∉ events) :
    ∃ pos, Once l start ((Walk.start start).run l events) pos := by
  induction events using reverseRecOn with
  | nil => exact ⟨some none, ⟨rfl, hids⟩, ⟨[], (append_nil start).symm⟩, rfl⟩
  | append_singleton before event ih =>
    obtain ⟨pos, ho⟩ := ih fun thread hin => hr thread (mem_append_left _ hin)
    rw [run_snoc]
    exact ho.step event fun thread heq =>
      hr thread (heq ▸ mem_append_right _ (mem_singleton.mpr rfl))

variable (l) in
/-- No reply and no new thread is older than what is there. -/
def NotOlder (w : Walk) : Event → Prop
  | .reply thread => ∀ t ∈ w.threads, t.key l.parseIso ≤ thread.key l.parseIso
  | .opened thread => ∀ t ∈ w.threads, t.key l.parseIso ≤ thread.key l.parseIso
  | .page _ _ _ => True

variable (l) (start) in
/-- A walk misses no thread: when its last page ends it, every thread there was at its start has
been served with all the replies it had got, no thread is served older than before, and without
replies every thread is served once, latest first. -/
structure Complete (events : List Event) : Prop where
  covered : ∀ before limit (hlimit : 0 < limit) budget,
    events = before ++ [.page limit hlimit budget] →
    ((Walk.start start).run l before).ask ≠ none → ((Walk.start start).run l events).ask = none →
      ∀ t ∈ start, ∃ s ∈ ((Walk.start start).run l events).served, s.thread.threadId = t.threadId ∧
        s.replies = ((Walk.start start).run l before).replies t.threadId
  grows : ((Walk.start start).run l events).served.Pairwise fun a b =>
    a.thread.threadId = b.thread.threadId → a.replies ≤ b.replies
  once : (∀ thread, Event.reply thread ∉ events) → ((Walk.start start).run l events).ask = none →
    ((Walk.start start).run l events).done start = arranged (Thread.order l.parseIso) start

theorem comment_walks_complete (l : CommentList) (start : List Thread)
    (hids : (start.map Thread.threadId).Nodup)
    (events : List Event) (hclear : Along l (Clear l) (.start start) events) :
    Complete l start events := by
  obtain ⟨pos, hc⟩ := run_covers hids hclear
  refine ⟨fun before limit hl budget he hask hend t ht => ?_, hc.grows, fun hre hend => ?_⟩
  · subst he
    obtain ⟨posBefore, hb⟩ := run_covers hids hclear.snoc.1
    have hpos : posBefore ≠ none := by
      rintro rfl
      exact hask hb.position.ask
    obtain ⟨pos', ha, hr, hsh⟩ := hb.page hpos hl budget
    obtain ⟨t', ht', hid⟩ := hb.present t ht
    rw [run_snoc] at hend ⊢
    rw [ha.position.ask, map_eq_none_iff] at hend
    subst hend
    obtain ⟨s, hs, hsid, hsr⟩ := (hsh t' ht' (hid ▸ mem_map_of_mem ht)).resolve_right id
    exact ⟨s, hs, hsid.trans hid, by rw [hsr, hr, hid]⟩
  · obtain ⟨pos', ho⟩ := run_once (l := l) hids hre
    rw [ho.position.ask, map_eq_none_iff] at hend
    subst hend
    exact ho.remains

end Walks

/-! ## A reply at the end of the window -/

def cursorKeyCodec : Codec CommentCursorKey :=
  .ofTexts (fun c => [c.hi] ++ [if c.lo.isSome then "lo" else "", c.lo.getD ""] ++
      [if c.atKey.isSome then "at" else "", c.atKey.getD ""])
    (fun texts => match texts with
      | [hi, hasLo, lo, hasAt, atKey] =>
        some ⟨if hasLo = "" then none else some lo, hi, if hasAt = "" then none else some atKey⟩
      | _ => none)
    (fun c => by
      obtain ⟨lo, hi, atKey⟩ := c
      cases lo <;> cases atKey <;> rfl)

def tiedList : CommentList where
  parseIso time :=
    if time = "2026-01-01T00:00:05Z" then some 1767225605000000000
    else if time = "2026-01-01T00:00:10Z" then some 1767225610000000000
    else if time = "2026-01-01T00:00:11Z" then some 1767225611000000000
    else none
  codec := cursorCodec
  keyCodec := cursorKeyCodec
  workspaceId := "w"
  noteId := "n"

def tiedThread (threadId lastActivity : String) : Thread := ⟨threadId, lastActivity, [], [], none⟩

def tiedStart : List Thread :=
  [tiedThread "a" "2026-01-01T00:00:05Z", tiedThread "b" "2026-01-01T00:00:10Z"]

/-- One thread a page. After the first page the thread that is left gets a reply, in the second of
the latest activity. -/
def tiedEvents : List Event :=
  [.page 1 Nat.one_pos 1000, .reply (tiedThread "a" "2026-01-01T00:00:10Z"),
    .page 1 Nat.one_pos 1000]

/-- Where the first page leaves the walk. -/
def tiedCursor : CommentCursor :=
  let key := activityKey tiedList.parseIso "2026-01-01T00:00:10Z"
  ⟨none, key, some (key, "b")⟩

theorem ofList_lt {a b : List Char} (h : a < b) : String.ofList a < String.ofList b := by
  rwa [String.lt_iff_toList_lt, String.toList_ofList, String.toList_ofList]

theorem tiedCursor_read :
    readCursor tiedList.codec tiedList.keyCodec (tiedList.token tiedCursor) tiedList.scope =
      .ok tiedCursor := by
  refine readCursor_named tiedCursor fun row hrow => ?_
  cases hrow
  decide

theorem tied_first : ((Walk.start tiedStart).step tiedList (.page 1 Nat.one_pos 1000)).ask =
      some (some (tiedList.token tiedCursor)) ∧
    ((Walk.start tiedStart).step tiedList (.page 1 Nat.one_pos 1000)).served.map (fun s =>
      s.thread.threadId) = ["b"] := by
  rw [step_first rfl]
  have hn :
      ((CommentCursor.mk none
          ((newest tiedList.parseIso (arranged (Thread.order tiedList.parseIso) tiedStart)).getD "")
          none).serve tiedList.parseIso (arranged (Thread.order tiedList.parseIso) tiedStart)
        1 1000).2 = some tiedCursor := by
    decide +kernel
  constructor
  · rw [Walk.take]
    dsimp only [Walk.start]
    rw [hn]
    rfl
  · decide +kernel

/-- The reply puts its thread before the cursor and not above the round, so the next page has
nothing to serve and no round is left. -/
theorem tied_last :
    ((Walk.start tiedStart).run tiedList (tiedEvents.take 2)).ask =
      some (some (tiedList.token tiedCursor)) ∧
    ((Walk.start tiedStart).run tiedList tiedEvents).ask = none ∧
    ((Walk.start tiedStart).run tiedList tiedEvents).served.map (fun s => s.thread.threadId) =
      ["b"] := by
  have hr : ∀ (w : Walk) t, (w.step tiedList (.reply t)).ask = w.ask ∧
      (w.step tiedList (.reply t)).served = w.served := fun _ _ => ⟨rfl, rfl⟩
  have hask : ((Walk.start tiedStart).run tiedList (tiedEvents.take 2)).ask =
      some (some (tiedList.token tiedCursor)) :=
    (hr _ _).1.trans tied_first.1
  refine ⟨hask, ?_⟩
  rw [show tiedEvents = tiedEvents.take 2 ++ [.page 1 Nat.one_pos 1000] from rfl, run_snoc,
    step_token hask, tiedCursor_read]
  have ht : ((Walk.start tiedStart).run tiedList (tiedEvents.take 2)).threads =
      [tiedThread "a" "2026-01-01T00:00:10Z", tiedThread "b" "2026-01-01T00:00:10Z"] :=
    congrArg (fun w : Walk =>
      (w.step tiedList (.reply (tiedThread "a" "2026-01-01T00:00:10Z"))).threads)
        (step_first rfl ..)
  have hs : (tiedCursor.serve tiedList.parseIso (arranged (Thread.order tiedList.parseIso)
      [tiedThread "a" "2026-01-01T00:00:10Z", tiedThread "b" "2026-01-01T00:00:10Z"]) 1
        1000).1.length = 0 ∧
    (tiedCursor.serve tiedList.parseIso (arranged (Thread.order tiedList.parseIso)
      [tiedThread "a" "2026-01-01T00:00:10Z", tiedThread "b" "2026-01-01T00:00:10Z"]) 1 1000).2 =
        none := by
    decide +kernel
  rw [Except.toOption, Option.elim, Walk.take, ht]
  dsimp only
  rw [hs.2, eq_nil_of_length_eq_zero hs.1]
  refine ⟨rfl, ?_⟩
  rw [map_nil, append_nil]
  exact (congrArg _ (hr _ _).2).trans tied_first.2

theorem tied_reply_missed : Along tiedList (NotOlder tiedList) (.start tiedStart) tiedEvents ∧
    ¬ Complete tiedList tiedStart tiedEvents := by
  constructor
  · refine ⟨trivial, ?_, trivial, trivial⟩
    rw [step_first rfl]
    exact forall_mem_cons.mpr ⟨(ofList_lt (by decide)).le, forall_mem_singleton.mpr le_rfl⟩
  · intro h
    obtain ⟨hask, hend, hse⟩ := tied_last
    obtain ⟨s, hs, hid, -⟩ := h.covered (tiedEvents.take 2) 1 Nat.one_pos 1000 rfl
      (by rw [hask]; exact some_ne_none _) hend (tiedThread "a" "2026-01-01T00:00:05Z")
        (by simp [tiedStart])
    have hmem := mem_map_of_mem (f := fun s : Served => s.thread.threadId) hs
    rw [hse, hid] at hmem
    exact absurd (mem_singleton.mp hmem) (by decide)

/-- The same walk with the reply a second later. -/
theorem comment_walks_complete_later : Complete tiedList tiedStart
      [.page 1 Nat.one_pos 1000, .reply (tiedThread "a" "2026-01-01T00:00:11Z"),
        .page 1 Nat.one_pos 1000] := by
  refine comment_walks_complete tiedList tiedStart (by decide) _ ⟨trivial, ?_, trivial, trivial⟩
  exact clear_of_read tied_first.1 tiedCursor_read (.inl (ofList_lt (by decide)))

end Intentd.CommentWalks
