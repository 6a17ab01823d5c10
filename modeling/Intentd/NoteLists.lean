import Intentd.KeysetWalks
import Intentd.ListPages
import Mathlib.Data.List.Induction
import Mathlib.Data.Prod.Lex
import Mathlib.Data.String.Basic

/-!
# Walks over the notes and tasks of a workspace

The notes of a workspace and its tasks are listed in the order of their creation time and id. A
page goes on after the creation time and id in its token. The snapshot of a task subscription is
a first page whose token the task list goes on from, although the one shows notes and the other
task summaries.

Between two pages notes are inserted, edited and deleted. An edit leaves the creation time and
the id. Ids are made by the daemon and are never empty.
-/
namespace Intentd.NoteLists
open ByteTexts JsonValues KeysetWalks ListPages List Option

@[ext] structure NoteId where
  value : String
  nonempty : value ≠ ""
  deriving DecidableEq

/-- A note. The other fields are kept as they are serialized, in three groups. -/
structure Note where
  id : NoteId
  createdAt : String
  content : List Char
  heading : Fields
  details : Fields
  version : Fields

structure WorkspaceTask where
  id : NoteId
  title : List Char
  fields : Fields

inductive NoteListProjection where
  | slim

section Rows

variable (note : Note)

def Note.toValue : Json :=
  .obj ([("id", .str note.id.value)] ++ note.heading ++
    [("content", .str (String.ofList note.content))] ++
    note.details ++ [("createdAt", .str note.createdAt)] ++ note.version)

def WorkspaceTask.toValue (task : WorkspaceTask) : Json :=
  .obj ([("id", .str task.id.value), ("title", .str (String.ofList task.title))] ++ task.fields)

/-- The longest beginning of a text of at most so many bytes. -/
def bytesPrefix : ℕ → List Char → List Char
  | _, [] => []
  | limit, c :: text =>
    if c.utf8Size ≤ limit then c :: bytesPrefix (limit - c.utf8Size) text else []

theorem bytesPrefix_spec (limit : ℕ) (text : List Char) :
    bytesPrefix limit text <+: text ∧ byteLen (bytesPrefix limit text) ≤ limit := by
  induction text generalizing limit with
  | nil => simp [bytesPrefix]
  | cons c text ih =>
    rw [bytesPrefix]
    split_ifs with hc
    · obtain ⟨hp, hl⟩ := ih (limit - c.utf8Size)
      rw [prefix_cons_inj, byteLen_cons]
      exact ⟨hp, by omega⟩
    · simp

/-- The beginning a cut read keeps, none when the whole content fits: up to the last line feed in
the limit, or else up to a character boundary that parts no carriage return from its line feed. -/
def truncatedContent (content : List Char) (limit : ℕ) : Option (List Char) :=
  if byteLen content ≤ limit then none
  else
    let kept := bytesPrefix limit content
    if '\n' ∈ kept then some (kept.reverse.dropWhile (· ≠ '\n')).reverse
    else if kept.getLast? = some '\r' ∧ content[kept.length]? = some '\n' then some kept.dropLast
    else some kept

def noteBoundedRow (maxContentBytes : ℕ) : Json :=
  match truncatedContent note.content maxContentBytes with
  | none => note.toValue
  | some content =>
    (({ note with content := content }.toValue).insert "contentTruncated" (.bool true)).insert
      "contentBytes"
      (.num (toString (byteLen note.content)))

def noteListPreviewChars : ℕ := 500

def noteListSlimRow : Json :=
  ((({ note with content := [] }.toValue).remove "content").insert "contentPreview"
    (.str (String.ofList (note.content.take noteListPreviewChars)))).insert "contentLength"
      (.num (toString note.content.length))

/-- Cut the content until the row fits. -/
def noteRowFrom (note : Note) (room cap : ℕ) : Json :=
  let row := noteBoundedRow note cap
  if cap = 0 ∨ jsonLen row ≤ room then row
  else noteRowFrom note room (cap - max (jsonLen row - room) 1)
termination_by cap
decreasing_by omega

def noteRowWithin (room : ℕ) : Json := noteRowFrom note room room

def popTitle (task : WorkspaceTask) (room : ℕ) : List Char → List Char
  | [] => []
  | c :: title =>
    if room < jsonLen { task with title := c :: title }.toValue then
      popTitle task room (c :: title).dropLast
    else c :: title
termination_by title => title.length
decreasing_by simp

end Rows

/-! ## Pages -/

section Pages

variable (codec : Codec CursorWire)
variable (workspaceId : String)

def noteListScope : String := "note.list:" ++ workspaceId

def taskListScope : String := "task.list:" ++ workspaceId

abbrev Place := String ×ₗ String

def place (createdAt : String) (id : NoteId) : Place := toLex (createdAt, id.value)

variable {α : Type}

/-- What the lists of notes and of tasks share: where a row stands and how it is shown. -/
structure Listing (α : Type) where
  scope : String
  createdAt : α → String
  id : α → NoteId
  render : α → Json
  shrink : α → ℕ → Json

def Listing.place (listing : Listing α) (item : α) : Place :=
  NoteLists.place (listing.createdAt item) (listing.id item)

/-- The rows of a page, each with the item it shows, and the token of the next page. -/
def Listing.page (listing : Listing α) (items : List α) (limit : ℕ)
    (after : Option (String × String)) (budget : ℕ) : List (α × Json) × Option String :=
  let items := ahead listing.place (after.map toLex) items
  let (rows, last) := takePage limit budget listing.render listing.shrink items
  (rows, (last.bind (items[·]?)).map fun item =>
    pageToken codec listing.scope (listing.createdAt item) (listing.id item).value)

def Listing.requested (listing : Listing α) (items : List α) (page : PageRequest) (budget : ℕ) :
    Except String (List (α × Json) × Option String) :=
  match page.nextToken with
  | none => .ok (listing.page codec items page.limit none budget)
  | some token => (parsePageToken codec token listing.scope).map fun after =>
    listing.page codec items page.limit (some after) budget

def noteListing (projection : Option NoteListProjection) (maxContentBytes : Option ℕ) :
    Listing Note where
  scope := noteListScope workspaceId
  createdAt := Note.createdAt
  id := Note.id
  render note := match projection with
    | some .slim => noteListSlimRow note
    | none => match maxContentBytes with
      | some limit => noteBoundedRow note limit
      | none => note.toValue
  shrink note room := match projection with
    | some .slim => noteListSlimRow note
    | none => noteRowWithin note room

def noteListPage (notes : List Note) (workspaceId : String) (projection : Option NoteListProjection)
    (maxContentBytes : Option ℕ) (page : PageRequest) (budget : ℕ) :
    Except String (List (Note × Json) × Option String) :=
  (noteListing workspaceId projection maxContentBytes).requested codec notes page budget

def stampTask (task : WorkspaceTask) : Json :=
  task.toValue.insert "workspaceId" (.str workspaceId)

def shrinkTask (task : WorkspaceTask) (room : ℕ) : Json :=
  let room := room - (escapedStrLen workspaceId + 16)
  let excess := jsonLen task.toValue - room
  let kept := bytesPrefix (byteLen task.title - excess) task.title
  stampTask workspaceId { task with title := popTitle task room kept }

def taskListing : Listing (String × WorkspaceTask) where
  scope := taskListScope workspaceId
  createdAt := Prod.fst
  id task := task.2.id
  render task := stampTask workspaceId task.2
  shrink task room := shrinkTask workspaceId task.2 room

def taskListPage (tasks : List (String × WorkspaceTask)) (workspaceId : String) (page : PageRequest)
    (budget : ℕ) : Except String (List ((String × WorkspaceTask) × Json) × Option String) :=
  (taskListing workspaceId).requested codec tasks page budget

def specLinkedBytes : ℕ := 20

def stampSnapshot (linked : NoteId → Bool) (row : Json) (note : Note) : Json :=
  row.insert "specLinked" (.bool (linked note.id))

def snapshotListing (linked : NoteId → Bool) : Listing Note where
  scope := taskListScope workspaceId
  createdAt := Note.createdAt
  id := Note.id
  render note := stampSnapshot linked note.toValue note
  shrink note room := stampSnapshot linked (noteRowWithin note (room - specLinkedBytes)) note

def taskSnapshotPage (notes : List Note) (linked : NoteId → Bool) (workspaceId : String)
    (limit budget : ℕ) : List (Note × Json) × Option String :=
  (snapshotListing workspaceId linked).page codec notes limit none budget

end Pages

variable {limit : ℕ}

section PageLaws

variable {α : Type}

def tokenAt (codec : Codec CursorWire) (scope : String) (p : Place) : String :=
  pageToken codec scope (ofLex p).1 (ofLex p).2

/-- A page of a listing shows the next places, and its token is that of the last. -/
theorem page_spec (codec : Codec CursorWire) (listing : Listing α) (items : List α)
    (hl : 0 < limit) (budget : ℕ) (after : Option Place) :
    ∃ rows next, listing.page codec items limit (after.map ofLex) budget = (rows,
      next.map (tokenAt codec listing.scope)) ∧
      Page after (items.map listing.place) (rows.map fun row => listing.place row.1) next ∧
      (∀ p, next = some p → (ofLex p).2 ≠ "") ∧ ∀ row ∈ rows, row.1 ∈ items ∧
        Shows listing.render listing.shrink row := by
  have ha : (after.map ofLex).map toLex = after := by cases after <;> rfl
  have ht :=
    takePage_takes budget listing.render listing.shrink hl (ahead listing.place after items)
  rw [Listing.page, ha]
  generalize takePage limit budget listing.render listing.shrink _ = taken at ht
  obtain ⟨rows, last⟩ := taken
  obtain ⟨rest, hr, hn⟩ := ht.first
  have hpl : ahead id after (items.map listing.place) =
      (rows.map fun row => listing.place row.1) ++ rest.map listing.place := by
    rw [← map_ahead, hr, map_append, List.map_map]
    rfl
  have hro : ∀ row ∈ rows, row.1 ∈ items ∧ Shows listing.render listing.shrink row := by
    intro row hrow
    refine ⟨?_, ht.shows row hrow⟩
    have hmem : row.1 ∈ ahead listing.place after items :=
      hr ▸ mem_append_left _ (mem_map_of_mem hrow)
    rw [ahead, mem_filter, mem_arranged] at hmem
    exact hmem.1
  cases last with
  | none =>
    refine ⟨rows, none, rfl, ⟨⟨_, hpl⟩, fun _ => ?_, by simp⟩, by simp, hro⟩
    rw [hpl, hn.mp rfl, map_nil, append_nil]
  | some i =>
    obtain ⟨before, row, rfl, rfl⟩ := ht.more i rfl
    have hit : (ahead listing.place after items)[before.length]? = some row.1 := by
      rw [hr, map_append, append_assoc, List.getElem?_append_right (by simp)]
      simp
    refine ⟨_, some (listing.place row.1), ?_, ⟨⟨_, hpl⟩, by simp, fun k hk => ?_⟩,
      fun p hp => ?_, hro⟩
    · simp only [bind_some, hit]
      rfl
    · cases hk
      exact ⟨before.map fun row => listing.place row.1, by rw [map_append, map_singleton]⟩
    · cases hp
      exact (listing.id row.1).nonempty

end PageLaws

/-! ## Walks -/

/-- A table that is read page by page while it changes. -/
structure Walk (α : Type) where
  rows : List α
  ask : Option (Option String)
  served : List (Place × Json)
  refused : Bool

section Walks

variable {α ρ : Type} (createdAt : α → String) (id : α → NoteId)

def placeOf (row : α) : Place := place (createdAt row) (id row)

/-- An edit leaves the creation time and the id. -/
def Edit : Type :=
  { change : α → α // ∀ row, createdAt (change row) = createdAt row ∧ id (change row) = id row }

inductive Event (ρ : Type) where
  | insert (row : α)
  | edit (rowId : NoteId) (edit : Edit createdAt id)
  | delete (rowId : NoteId)
  | page (read : ρ)

variable {createdAt id}

def Event.isPage : Event createdAt id ρ → Bool
  | .page _ => true
  | _ => false

/-- One page call: what is asked with a token, of a table. -/
abbrev Serve (α ρ : Type) := Option String → List α → ρ →
    Except String (List (Place × Json) × Option String)

variable (serve : Serve α ρ)

def Walk.step (w : Walk α) : Event createdAt id ρ → Walk α
  | .insert row => if id row ∈ w.rows.map id then w else { w with rows := w.rows ++ [row] }
  | .edit rowId edit =>
    { w with rows := w.rows.map fun row => if id row = rowId then edit.1 row else row }
  | .delete rowId => { w with rows := w.rows.filter fun row => id row ≠ rowId }
  | .page read =>
    match w.ask with
    | none => w
    | some token =>
      match serve token w.rows read with
      | .error _ => { w with ask := none, refused := true }
      | .ok (shown, next) => { w with ask := next.map some, served := w.served ++ shown }

def Walk.run (w : Walk α) (events : List (Event createdAt id ρ)) : Walk α :=
  events.foldl (Walk.step serve) w

def Walk.start (rows : List α) : Walk α := ⟨rows, some none, [], false⟩

/-- The place was in the table in every state of a run. -/
def Throughout (start : Walk α) (events : List (Event createdAt id ρ)) (k : Place) : Prop :=
  ∀ before after, events = before ++ after →
    k ∈ (start.run serve before).rows.map (placeOf createdAt id)

variable (codec : Codec CursorWire) (scope : String)

/-- No page to come will show the place. -/
def Behind (w : Walk α) (k : Place) : Prop :=
  ∀ token, w.ask = some token → ∃ p, token = some (tokenAt codec scope p) ∧ k ≤ p

/-- Every row inserted in a run goes behind the walk. -/
def Quiet (w : Walk α) (events : List (Event createdAt id ρ)) : Prop :=
  ∀ before row after, events = before ++ .insert row :: after →
    Behind codec scope (w.run serve before) (placeOf createdAt id row)

structure Stable (shown : α → Json → Prop) (start : Walk α) (events : List (Event createdAt id ρ)) :
    Prop where
  accepted : (start.run serve events).refused = false
  rows : ∀ row ∈ (start.run serve events).served, ∃ before after, events = before ++ after ∧
    ∃ item ∈ (start.run serve before).rows, placeOf createdAt id item = row.1 ∧ shown item row.2
  ordered : ((start.run serve events).served.map Prod.fst).Pairwise (· < ·)
  complete : (start.run serve events).ask = none → ∀ k, Throughout serve start events k →
    ((start.run serve events).served.map Prod.fst).count k = 1
  ends : ∀ more : List (Event createdAt id ρ),
    Quiet serve codec scope (start.run serve events) more →
    (start.run serve events).rows.length < more.countP Event.isPage →
    (start.run serve (events ++ more)).ask = none

/-- Every call is answered by a page of the table, with the token of its last place. -/
structure PagesBy (createdAt : α → String) (id : α → NoteId) (shown : α → Json → Prop) : Prop where
  page : ∀ after : Option Place, (∀ p, after = some p → (ofLex p).2 ≠ "") →
    ∀ rows read, ∃ served next, serve (after.map (tokenAt codec scope)) rows read =
      .ok (served, next.map (tokenAt codec scope)) ∧
      Page after (rows.map (placeOf createdAt id)) (served.map Prod.fst) next ∧
      (∀ p, next = some p → (ofLex p).2 ≠ "") ∧
      ∀ row ∈ served, ∃ item ∈ rows, placeOf createdAt id item = row.1 ∧ shown item row.2

structure At (id : α → NoteId) (w : Walk α) (pos : Option (Option Place)) : Prop where
  ask : w.ask = pos.map (Option.map (tokenAt codec scope))
  named : ∀ p, pos = some (some p) → (ofLex p).2 ≠ ""
  ids : (w.rows.map id).Nodup
  accepted : w.refused = false

inductive Moves (shown : α → Json → Prop) (event : Event createdAt id ρ) (w : Walk α)
    (pos : Option (Option Place)) (w' : Walk α) (pos' : Option (Option Place)) : Prop
  | changed (hserved : w'.served = w.served) (hpos : pos' = pos) (hover : event.isPage = true →
      pos = none)
  | read {after next : Option Place} {served : List (Place × Json)} (hpos : pos = some after)
      (hrows : w'.rows = w.rows)
      (hpage : Page after (w.rows.map (placeOf createdAt id)) (served.map Prod.fst) next)
        (hpos' : pos' = next.map some)
      (hserved : w'.served = w.served ++ served)
      (hshown : ∀ row ∈ served, ∃ item ∈ w.rows, placeOf createdAt id item = row.1 ∧
        shown item row.2)

variable {serve codec scope} {shown : α → Json → Prop} {w : Walk α} {pos : Option (Option Place)}
  {rows : List α} {events : List (Event createdAt id ρ)} {event : Event createdAt id ρ} {k : Place}

theorem map_edit {β : Type} {f : α → β} (rows : List α) (rowId : NoteId) (edit : Edit createdAt id)
    (hf : ∀ row, f (edit.1 row) = f row) :
    (rows.map fun row => if id row = rowId then edit.1 row else row).map f = rows.map f := by
  rw [List.map_map]
  refine map_congr_left fun row _ => ?_
  dsimp only [Function.comp_apply]
  split_ifs
  · exact hf row
  · rfl

theorem placeOf_nodup (h : (rows.map id).Nodup) : (rows.map (placeOf createdAt id)).Nodup := by
  refine pairwise_map.mpr ((pairwise_map.mp h).imp fun hne hp => hne ?_)
  exact NoteId.ext (congrArg (fun p : Place => (ofLex p).2) hp)

theorem step_moves (hse : PagesBy serve codec scope createdAt id shown)
    (h : At codec scope id w pos) (event : Event createdAt id ρ) :
    ∃ pos', At codec scope id (w.step serve event) pos' ∧
      Moves shown event w pos (w.step serve event) pos' := by
  cases event with
  | insert row =>
    rw [Walk.step]
    split_ifs with hin
    · exact ⟨pos, h, .changed rfl rfl nofun⟩
    · refine ⟨pos, { h with ids := ?_ }, .changed rfl rfl nofun⟩
      rw [map_append, map_singleton, ← concat_eq_append]
      exact h.ids.concat hin
  | edit rowId edit =>
    refine ⟨pos, { h with ids := ?_ }, .changed rfl rfl nofun⟩
    rw [Walk.step, map_edit w.rows rowId edit fun row => (edit.2 row).2]
    exact h.ids
  | delete rowId =>
    exact ⟨pos, { h with ids := (filter_sublist.map id).nodup h.ids }, .changed rfl rfl nofun⟩
  | page read =>
    rw [Walk.step]
    cases pos with
    | none =>
      rw [h.ask]
      exact ⟨none, h, .changed rfl rfl fun _ => rfl⟩
    | some after =>
      obtain ⟨served, next, hs, hpa, hn, hsh⟩ :=
        hse.page after (fun p hp => h.named p (hp ▸ rfl)) w.rows read
      rw [h.ask, map_some]
      dsimp only
      rw [hs]
      refine ⟨next.map some, ⟨?_, ?_, h.ids, h.accepted⟩, .read rfl rfl hpa rfl rfl hsh⟩
      · cases next <;> rfl
      · intro p hp
        obtain ⟨p', hp', hso⟩ := map_eq_some_iff.mp hp
        cases hso
        exact hn p hp'

theorem run_snoc (start : Walk α) (events : List (Event createdAt id ρ))
    (event : Event createdAt id ρ) :
    start.run serve (events ++ [event]) = (start.run serve events).step serve event := by
  rw [Walk.run, foldl_append]
  rfl

theorem Throughout.of_snoc {start : Walk α} (h : Throughout serve start (events ++ [event]) k) :
    Throughout serve start events k ∧
      k ∈ (start.run serve events).rows.map (placeOf createdAt id) := by
  have hb : Throughout serve start events k :=
    fun before after hs => h before (after ++ [event]) (by rw [hs, append_assoc])
  exact ⟨hb, hb events [] (append_nil events).symm⟩

structure Reached (codec : Codec CursorWire) (scope : String) (serve : Serve α ρ)
    (shown : α → Json → Prop)
    (start : Walk α) (events : List (Event createdAt id ρ)) (pos : Option (Option Place)) :
    Prop where
  position : At codec scope id (start.run serve events) pos
  walked : Walked (Throughout serve start events) pos ((start.run serve events).served.map Prod.fst)
  rows : ∀ row ∈ (start.run serve events).served, ∃ before after, events = before ++ after ∧
    ∃ item ∈ (start.run serve before).rows, placeOf createdAt id item = row.1 ∧ shown item row.2

theorem run_reached (hser : PagesBy serve codec scope createdAt id shown)
    (hids : (rows.map id).Nodup) (events : List (Event createdAt id ρ)) :
    ∃ pos, Reached codec scope serve shown (.start rows) events pos := by
  induction events using List.reverseRecOn with
  | nil =>
    exact ⟨some none, ⟨rfl, nofun, hids, rfl⟩, .start _, fun row hrow => absurd hrow not_mem_nil⟩
  | append_singleton events event ih =>
    obtain ⟨pos, h⟩ := ih
    obtain ⟨pos', hpo', hmo⟩ := step_moves hser h.position event
    refine ⟨pos', ?_⟩
    have hold : ∀ row ∈ ((Walk.start rows).run serve events).served, ∃ before after,
        events ++ [event] = before ++ after ∧ ∃ item ∈ ((Walk.start rows).run serve before).rows,
          placeOf createdAt id item = row.1 ∧ shown item row.2 := by
      intro row hrow
      obtain ⟨before, after, hsp, hit⟩ := h.rows row hrow
      exact ⟨before, after ++ [event], by rw [hsp, append_assoc], hit⟩
    rw [← run_snoc] at hpo' hmo
    cases hmo with
    | changed hse hpos hov =>
      subst hpos
      refine ⟨hpo', ?_, hse ▸ hold⟩
      rw [hse]
      exact h.walked.mono fun k hk => hk.of_snoc.1
    | read hpos hro hpa hne hse hsh =>
      subst hpos hne
      refine ⟨hpo', ?_, fun row hrow => ?_⟩
      · rw [hse, map_append]
        exact (h.walked.mono fun k hk => (Throughout.of_snoc hk).1).read
          (placeOf_nodup h.position.ids) (fun k hk => hk.of_snoc.2) hpa
      · rw [hse] at hrow
        rcases mem_append.mp hrow with hin | hin
        · exact hold row hin
        · exact ⟨events, [event], rfl, hsh row hin⟩

/-- The rows a walk still has to show. -/
def left (keys : List Place) : Option (Option Place) → ℕ
  | none => 0
  | some after => remaining after keys

theorem left_le (keys : List Place) (pos : Option (Option Place)) :
    left keys pos ≤ keys.length := by
  cases pos with
  | none => exact Nat.zero_le _
  | some after => exact countP_le_length

theorem tokenAt_injective {p p' : Place} (h : tokenAt codec scope p = tokenAt codec scope p') :
    p = p' := by
  have hd := congrArg codec.decode h
  rw [tokenAt, tokenAt, pageToken, pageToken, codec.decode_encode, codec.decode_encode, some.injEq,
    CursorWire.mk.injEq] at hd
  exact ofLex.injective (Prod.ext hd.2.2.1 hd.2.2.2)

theorem Behind.left_append (h : At codec scope id w pos) (hk : Behind codec scope w k)
    (keys : List Place) : left (keys ++ [k]) pos = left keys pos := by
  cases pos with
  | none => rfl
  | some after =>
    obtain ⟨p, hp, hle⟩ := hk (after.map (tokenAt codec scope)) h.ask
    obtain ⟨p', rfl, ht⟩ := map_eq_some_iff.mp hp
    cases tokenAt_injective ht
    rw [left, left, remaining, remaining, countP_append]
    simp [hle]

theorem step_left (hser : PagesBy serve codec scope createdAt id shown)
    (h : At codec scope id w pos) (event : Event createdAt id ρ)
    (hqu : ∀ row, event = .insert row → Behind codec scope w (placeOf createdAt id row)) :
    ∃ pos', At codec scope id (w.step serve event) pos' ∧ (pos'.isSome = true → pos.isSome = true ∧
        left ((w.step serve event).rows.map (placeOf createdAt id)) pos' +
          [event].countP Event.isPage ≤ left (w.rows.map (placeOf createdAt id)) pos) := by
  obtain ⟨pos', hpo', hmo⟩ := step_moves hser h event
  refine ⟨pos', hpo', fun hso => ?_⟩
  obtain ⟨after', haf'⟩ := isSome_iff_exists.mp hso
  cases hmo with
  | read hpos hro hpa hne hse hsh =>
    subst hpos hne
    obtain ⟨k, rfl, rfl⟩ := map_eq_some_iff.mp haf'
    refine ⟨rfl, ?_⟩
    rw [hro]
    have hone := countP_le_length (p := Event.isPage) (l := [event])
    exact Nat.le_trans (Nat.add_le_add_left hone _) hpa.remaining_lt
  | changed hse hpos hov =>
    subst hpos haf'
    refine ⟨rfl, ?_⟩
    cases event with
    | insert row =>
      rw [Walk.step]
      split_ifs with hin
      · exact Nat.le_refl _
      · rw [map_append, map_singleton, (hqu row rfl).left_append h]
        exact Nat.le_refl _
    | edit rowId edit =>
      rw [Walk.step, map_edit w.rows rowId edit fun row => by rw [placeOf, placeOf, (edit.2 row).1,
        (edit.2 row).2]]
      exact Nat.le_refl _
    | delete rowId => exact (filter_sublist.map _).countP_le
    | page read => cases hov rfl

theorem Quiet.of_snoc (h : Quiet serve codec scope w (events ++ [event])) :
    Quiet serve codec scope w events ∧ ∀ row, event = .insert row →
        Behind codec scope (w.run serve events) (placeOf createdAt id row) := by
  refine ⟨fun before row after hs => h before row (after ++ [event]) ?_,
    fun row hrow => h events row [] ?_⟩
  · rw [hs, append_assoc]
    rfl
  · rw [hrow]

theorem run_left (hse : PagesBy serve codec scope createdAt id shown) (h : At codec scope id w pos)
    (events : List (Event createdAt id ρ)) (hq : Quiet serve codec scope w events) :
    ∃ pos', At codec scope id (w.run serve events) pos' ∧ (pos'.isSome = true → pos.isSome = true ∧
        left ((w.run serve events).rows.map (placeOf createdAt id)) pos' +
          events.countP Event.isPage ≤ left (w.rows.map (placeOf createdAt id)) pos) := by
  induction events using List.reverseRecOn with
  | nil => exact ⟨pos, h, fun hs => ⟨hs, Nat.le_refl _⟩⟩
  | append_singleton events event ih =>
    obtain ⟨hb, hla⟩ := hq.of_snoc
    obtain ⟨mid, hmid, hm⟩ := ih hb
    obtain ⟨pos', hp', hl⟩ := step_left hse hmid event hla
    rw [← run_snoc] at hp' hl
    refine ⟨pos', hp', fun hs => ?_⟩
    obtain ⟨hmi, hle⟩ := hl hs
    obtain ⟨hp, hle'⟩ := hm hmi
    refine ⟨hp, ?_⟩
    rw [countP_append]
    omega

theorem walk_stable (hs : PagesBy serve codec scope createdAt id shown)
    (hids : (rows.map id).Nodup) (events : List (Event createdAt id ρ)) :
    Stable serve codec scope shown (.start rows) events := by
  obtain ⟨pos, h⟩ := run_reached hs hids events
  refine ⟨h.position.accepted, h.rows, h.walked.sorted, fun ho k hk => ?_, fun more hq hm => ?_⟩
  · have hn : pos = none := by
      have hask := h.position.ask
      rw [ho] at hask
      exact map_eq_none_iff.mp hask.symm
    have hmem := h.walked.served k hk fun after ha => (by rw [hn] at ha; cases ha)
    exact count_eq_one_of_mem (h.walked.sorted.imp fun h => ne_of_lt h) hmem
  · obtain ⟨pos', hp', hl⟩ := run_left hs h.position more hq
    have hrun : (Walk.start rows).run serve (events ++ more) =
        ((Walk.start rows).run serve events).run serve more := by
      rw [Walk.run, foldl_append]
      rfl
    rw [hrun, hp'.ask]
    cases pos' with
    | none => rfl
    | some after =>
      have hle := (hl rfl).2
      have hb := left_le (((Walk.start rows).run serve events).rows.map (placeOf createdAt id)) pos
      rw [length_map] at hb
      omega

end Walks

/-! ## The lists of a workspace -/

section Lists

variable (codec : Codec CursorWire) (workspaceId : String)

/-- What a call of the note list asks for besides its token. -/
structure NoteRead where
  projection : Option NoteListProjection
  maxContentBytes : Option ℕ
  limit : ℕ
  limit_pos : 0 < limit
  budget : ℕ

def placed {α : Type} (placeOf : α → Place) (page : List (α × Json) × Option String) :
    List (Place × Json) × Option String :=
  (page.1.map fun row => (placeOf row.1, row.2), page.2)

def Note.place (note : Note) : Place := NoteLists.place note.createdAt note.id

def noteServe : Serve Note NoteRead := fun token notes read =>
  (noteListPage codec notes workspaceId read.projection read.maxContentBytes ⟨read.limit,
    read.limit_pos, token⟩
    read.budget).map (placed Note.place)

structure TaskNote where
  note : Note
  task : WorkspaceTask
  same : task.id = note.id

/-- What a call of a task walk asks for. A first call may be the snapshot of a subscription, which
marks the tasks that are linked in the spec. -/
structure TaskRead where
  snapshot : Option (NoteId → Bool)
  limit : ℕ
  limit_pos : 0 < limit
  budget : ℕ

def taskServe : Serve TaskNote TaskRead := fun token tasks read =>
  match if token.isNone then read.snapshot else none with
  | some linked =>
    .ok (placed Note.place (taskSnapshotPage codec (tasks.map TaskNote.note) linked workspaceId
      read.limit read.budget))
  | none =>
    (taskListPage codec (tasks.map fun t => (t.note.createdAt, t.task)) workspaceId
      ⟨read.limit, read.limit_pos, token⟩ read.budget).map (placed fun task =>
        place task.1 task.2.id)

/-- A row is the note, as one of the projections shows it. -/
def NoteShown (note : Note) (row : Json) : Prop :=
  ∃ projection maxContentBytes, Shows (noteListing workspaceId projection maxContentBytes).render
    (noteListing workspaceId projection maxContentBytes).shrink (note, row)

/-- A row is the task, as a subscription or the task list shows it. -/
def TaskShown (t : TaskNote) (row : Json) : Prop :=
  (∃ linked,
    Shows (snapshotListing workspaceId linked).render (snapshotListing workspaceId linked).shrink
      (t.note, row)) ∨ Shows (taskListing workspaceId).render (taskListing workspaceId).shrink
      ((t.note.createdAt, t.task), row)

def TaskNote.createdAt (t : TaskNote) : String := t.note.createdAt

def TaskNote.id (t : TaskNote) : NoteId := t.note.id

abbrev NoteEvent := Event Note.createdAt Note.id NoteRead

abbrev TaskEvent := Event TaskNote.createdAt TaskNote.id TaskRead

variable {codec workspaceId} {α : Type}

section Answers

variable {β : Type} {createdAt : β → String} {id : β → NoteId} {table : List β}
  {after : Option Place}

/-- A call is answered by a page of the table. -/
def Answers (codec : Codec CursorWire) (scope : String) (createdAt : β → String) (id : β → NoteId)
    (shown : β → Json → Prop) (after : Option Place) (table : List β)
    (answer : Except String (List (Place × Json) × Option String)) : Prop :=
  ∃ served next, answer = .ok (served, next.map (tokenAt codec scope)) ∧
    Page after (table.map (placeOf createdAt id)) (served.map Prod.fst) next ∧
    (∀ p, next = some p → (ofLex p).2 ≠ "") ∧
    ∀ row ∈ served, ∃ item ∈ table, placeOf createdAt id item = row.1 ∧ shown item row.2

theorem placed_page (codec : Codec CursorWire) (listing : Listing α) (project : β → α)
    (hpl : ∀ row, listing.place (project row) = placeOf createdAt id row) (table : List β)
    (hli : 0 < limit) (budget : ℕ) (after : Option Place) {shown : β → Json → Prop}
    (hsh : ∀ item row, Shows listing.render listing.shrink (project item, row) → shown item row) :
    Answers codec listing.scope createdAt id shown after table
      (.ok (placed listing.place (listing.page codec (table.map project) limit (after.map ofLex)
        budget))) := by
  obtain ⟨rows, next, hpag, hpa, hna, hro⟩ :=
    page_spec codec listing (table.map project) hli budget after
  have hpla : (table.map project).map listing.place = table.map (placeOf createdAt id) := by
    rw [List.map_map]
    exact map_congr_left fun row _ => hpl row
  rw [hpag]
  refine ⟨_, next, rfl, ?_, hna, fun row hrow => ?_⟩
  · rw [List.map_map, ← hpla]
    exact hpa
  · obtain ⟨⟨shown, json⟩, hmem, rfl⟩ := mem_map.mp hrow
    obtain ⟨hin, hsho⟩ := hro _ hmem
    obtain ⟨item, hit, rfl⟩ := mem_map.mp hin
    exact ⟨item, hit, (hpl item).symm, hsh item json hsho⟩

theorem requested_page (codec : Codec CursorWire) (listing : Listing α) (project : β → α)
    (hpl : ∀ row, listing.place (project row) = placeOf createdAt id row) (table : List β)
    (hli : 0 < limit) (budget : ℕ)
    (ha : ∀ p, after = some p → (ofLex p).2 ≠ "") {shown : β → Json → Prop}
    (hsh : ∀ item row, Shows listing.render listing.shrink (project item, row) → shown item row) :
    Answers codec listing.scope createdAt id shown after table
      ((listing.requested codec (table.map project) ⟨limit, hli,
        after.map (tokenAt codec listing.scope)⟩ budget).map
        (placed listing.place)) := by
  have hp := placed_page codec listing project hpl table hli budget after hsh
  cases after with
  | none => exact hp
  | some p =>
    rw [Listing.requested, map_some]
    dsimp only
    rw [tokenAt, parsePageToken_pageToken codec (ha p rfl)]
    exact hp

end Answers

theorem noteServe_pages :
    PagesBy (noteServe codec workspaceId) codec (noteListScope workspaceId) Note.createdAt Note.id
      (NoteShown workspaceId) := by
  refine ⟨fun after ha notes read => ?_⟩
  have hl : Answers codec _ Note.createdAt Note.id (NoteShown workspaceId) after notes _ :=
    requested_page codec (noteListing workspaceId read.projection read.maxContentBytes) (fun note =>
      note) (fun _ => rfl)
      notes read.limit_pos read.budget ha fun _ _ h => ⟨_, _, h⟩
  rw [List.map_id'] at hl
  exact hl

theorem taskServe_pages :
    PagesBy (taskServe codec workspaceId) codec (taskListScope workspaceId)
      TaskNote.createdAt TaskNote.id
      (TaskShown workspaceId) := by
  refine ⟨fun after ha tasks read => ?_⟩
  have hl : Answers codec _ TaskNote.createdAt TaskNote.id (TaskShown workspaceId) after tasks _ :=
    requested_page codec (taskListing workspaceId) (fun t : TaskNote => (t.note.createdAt, t.task))
      (fun t => congrArg (place t.note.createdAt) t.same) tasks read.limit_pos read.budget ha
        fun _ _ => .inr
  cases after with
  | some p => exact hl
  | none =>
    rw [taskServe, map_none, isNone_none, if_pos rfl]
    cases read.snapshot with
    | none => exact hl
    | some linked =>
      exact placed_page codec (snapshotListing workspaceId linked) TaskNote.note (fun _ =>
        rfl) tasks read.limit_pos
        read.budget none fun _ _ h => .inl ⟨linked, h⟩

theorem requested_foreign (codec : Codec CursorWire) (listing : Listing α) (items : List α)
    (page : PageRequest) (budget : ℕ) {scope key id : String}
    (ht : page.nextToken = some (pageToken codec scope key id)) (hs : scope ≠ listing.scope) :
    listing.requested codec items page budget = .error "invalid nextToken" := by
  rw [Listing.requested, ht]
  dsimp only
  rw [parsePageToken_of_ne codec hs]
  rfl

theorem noteListScope_ne_taskListScope (w w' : String) : noteListScope w ≠ taskListScope w' := by
  intro h
  have hh := congrArg (fun s : String => s.toList.head?) h
  simp [noteListScope, taskListScope] at hh

/-- Walks over the notes and over the tasks of a workspace are stable under change, and a token is
refused by the lists of other workspaces and by the other kind of list. -/
theorem list_walks_stable (codec : Codec CursorWire) (workspaceId : String) :
    (∀ (notes : List Note) (events : List NoteEvent), (notes.map Note.id).Nodup →
      Stable (noteServe codec workspaceId) codec (noteListScope workspaceId) (NoteShown workspaceId)
        (.start notes) events) ∧
    (∀ (tasks : List TaskNote) (events : List TaskEvent), (tasks.map TaskNote.id).Nodup →
      Stable (taskServe codec workspaceId) codec (taskListScope workspaceId) (TaskShown workspaceId)
        (.start tasks) events) ∧ (∀ (other key id : String) (page : PageRequest) (budget : ℕ),
      (page.nextToken = some (pageToken codec (noteListScope workspaceId) key id) →
        (∀ tasks, taskListPage codec tasks other page budget = .error "invalid nextToken") ∧
        (other ≠ workspaceId → ∀ notes projection maxContentBytes,
          noteListPage codec notes other projection maxContentBytes page budget =
            .error "invalid nextToken")) ∧
      (page.nextToken = some (pageToken codec (taskListScope workspaceId) key id) →
        (∀ notes projection maxContentBytes,
          noteListPage codec notes other projection maxContentBytes page budget =
            .error "invalid nextToken") ∧ (other ≠ workspaceId →
          ∀ tasks, taskListPage codec tasks other page budget = .error "invalid nextToken"))) := by
  refine ⟨fun notes events hids => walk_stable noteServe_pages hids events,
    fun tasks events hids => walk_stable taskServe_pages hids events,
    fun other key id page budget =>
      ⟨fun ht => ⟨fun tasks => ?_, fun hne notes projection maxContentBytes => ?_⟩,
      fun ht => ⟨fun notes projection maxContentBytes => ?_, fun hne tasks => ?_⟩⟩⟩
  · exact requested_foreign codec _ tasks page budget ht
      (noteListScope_ne_taskListScope workspaceId other)
  · exact requested_foreign codec _ notes page budget ht fun h =>
      hne ((String.append_right_inj _).mp h).symm
  · exact requested_foreign codec _ notes page budget ht
      (noteListScope_ne_taskListScope other workspaceId).symm
  · exact requested_foreign codec _ tasks page budget ht fun h =>
      hne ((String.append_right_inj _).mp h).symm

/-- Two notes, read one a page while the first is deleted. -/
theorem list_walks_stable_deleted :
    Stable (noteServe cursorCodec "w") cursorCodec (noteListScope "w") (NoteShown "w")
      (.start [⟨⟨"a", by decide⟩, "1", [], [], [], []⟩, ⟨⟨"b", by decide⟩, "2", [], [], [], []⟩])
      ([.page ⟨none, none, 1, Nat.one_pos, 100⟩, .delete ⟨"a", by decide⟩,
        .page ⟨none, none, 1, Nat.one_pos, 100⟩] : List NoteEvent) :=
  (list_walks_stable cursorCodec "w").1 _ _ (by decide)

end Lists

end Intentd.NoteLists
