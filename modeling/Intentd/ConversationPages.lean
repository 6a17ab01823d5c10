import Intentd.PageWalks
import Intentd.PageWindows

/-!
# The pages of a conversation

A conversation is read in pages, backward from the newest message or from a seek page outwards
in both directions. Each page is a window of the log, trimmed to a byte budget, and its tokens
are minted again where the trim left off. The log grows between the calls.

The rows are as they are served: an identity and a serialized size.
-/
namespace Intentd.ConversationPages
open MachineWords PageWindows PageWalks List Option Nat

structure Row where
  id : String
  size : ℕ
  deriving DecidableEq

inductive Request where
  | page (token : Option String)
  | aroundMessage (id : String)
  | aroundIndex (index : ℤ)

/-- The window of a request, before the budget. A seek or forward page has a `prevToken`, which
is null at the newest row. -/
structure Resolved where
  anchor : BudgetAnchor
  start : ℕ
  stop : ℕ
  nextToken : Option String
  prevToken : Option (Option String)

structure Page where
  start : ℕ
  stop : ℕ
  rows : List Row
  nextToken : Option String
  prevToken : Option (Option String)

section Serve

variable (codec : TokenCodec) (budget : ℕ)

/-- The window of a request. An unknown message is an error. -/
def resolve (log : List Row) (limit : Option ℤ) : Request → Option Resolved
  | .aroundMessage id => do
      let index ← log.findIdx? fun row => row.id = id
      let w := pageWindowAround codec log.length limit index
      some ⟨.target index, w.start, w.stop, w.nextToken, some w.prevToken⟩
  | .aroundIndex index =>
    let clamped := min index.toNat (log.length - 1)
    let w := pageWindowAround codec log.length limit clamped
    some ⟨.target clamped, w.start, w.stop, w.nextToken, some w.prevToken⟩
  | .page token =>
    match token.bind (forwardPageWindow codec log.length limit) with
    | some w => some ⟨.oldest, w.start, w.stop, w.nextToken, some w.prevToken⟩
    | none =>
      let w := pageWindow codec log.length limit token
      some ⟨.newest, w.start, w.stop, w.nextToken, none⟩

def localAnchor (start : ℕ) : BudgetAnchor → BudgetAnchor
  | .target index => .target (index - start)
  | anchor => anchor

def serveWindow (log : List Row) (r : Resolved) : Page :=
  let rows := log.extract r.start r.stop
  let kept := budgetPage (rows.map Row.size) (localAnchor r.start r.anchor) budget
  if kept ≠ (0, rows.length) then
    ⟨r.start + kept.1, r.start + kept.2, (rows.take kept.2).drop kept.1,
      remintBackwardToken codec (r.start + kept.1),
      r.prevToken.map fun _ => remintForwardToken codec (r.start + kept.2) log.length⟩
  else ⟨r.start, r.stop, rows, r.nextToken, r.prevToken⟩

def getConversation (log : List Row) (limit : Option ℤ) (request : Request) : Option Page :=
  (resolve codec log limit request).map (serveWindow codec budget log)

end Serve

/-- The calls of a reader: the log at each of them and the limit asked for. -/
structure Calls where
  log : ℕ → List Row
  limit : ℕ → Option ℤ
  grows : ∀ n, log n <+: log (n + 1)

section Walks

variable (codec : TokenCodec) (budget : ℕ) (calls : Calls)

def serveOlder (n : ℕ) (token : Option String) : Option (Page × Option (Option String)) :=
  (getConversation codec budget (calls.log n) (calls.limit n) (.page token)).map fun page =>
    (page, page.nextToken.map some)

def serveNewer (n : ℕ) (token : Option String) : Option (Page × Option (Option String)) :=
  (getConversation codec budget (calls.log n) (calls.limit n) (.page token)).map fun page =>
    (page, page.prevToken.join.map some)

/-- The pages from a token of another page on. -/
def continued (serve : ℕ → Option String → Option (Page × Option (Option String))) (fuel : ℕ) :
    Option String → Option (List Page)
  | none => some []
  | some token => follow serve fuel 0 (some token)

end Walks

/-- A page of a log: contiguous, and within the budget or a single row. -/
structure Page.Of (log : List Row) (budget : ℕ) (page : Page) : Prop where
  le : page.start ≤ page.stop
  stop_le : page.stop ≤ log.length
  rows_eq : page.rows = log.extract page.start page.stop
  bounded : page.rows.length = 1 ∨ min (page.rows.map Row.size).sum u64Max ≤ budget

/-- The rows of pages that were served newest first. -/
def olderRows (pages : List Page) : List Row := pages.reverse.flatMap Page.rows

/-- The log at the last of some calls, or the log before them. -/
def lastLog (log : List Row) (calls : Calls) : ℕ → List Row
  | 0 => log
  | n + 1 => calls.log n

/-! ## One page -/

variable {codec : TokenCodec} {budget f : ℕ} {log : List Row} {token : Option String}

section Page

variable {limit : Option ℤ} {r : Resolved}

/-- A resolved window whose tokens name its own ends. -/
structure Resolved.Minted (codec : TokenCodec) (log : List Row) (r : Resolved) : Prop where
  le : r.start ≤ r.stop
  stop_le : r.stop ≤ log.length
  next_eq : r.nextToken = remintBackwardToken codec r.start
  prev_eq : r.prevToken = r.prevToken.map fun _ => remintForwardToken codec r.stop log.length

def Resolved.kept (budget : ℕ) (log : List Row) (r : Resolved) : ℕ × ℕ :=
  budgetPage ((log.extract r.start r.stop).map Row.size) (localAnchor r.start r.anchor) budget

theorem length_extract (log : List Row) (a : ℕ) {b : ℕ} (h : b ≤ log.length) :
    (log.extract a b).length = b - a := by
  rw [extract_eq_take_drop, length_take, length_drop]
  omega

theorem extract_extract (log : List Row) {a b lo hi : ℕ} (hhi : a + hi ≤ b) :
    ((log.extract a b).take hi).drop lo = log.extract (a + lo) (a + hi) := by
  rw [extract_eq_take_drop, extract_eq_take_drop, take_take, min_eq_left (by omega),
    drop_take, drop_drop]
  congr 1
  omega

/-- What a window is served as: the part of it that the budget keeps. -/
theorem served {request : Request} {lo hi : ℕ} (hre : resolve codec log limit request = some r)
    (h : r.Minted codec log) (hk : Keeps ((log.extract r.start r.stop).map Row.size) budget lo hi)
    (hke : r.kept budget log = (lo, hi)) :
    ∃ page, getConversation codec budget log limit request = some page ∧ page.Of log budget ∧
      page.start = r.start + lo ∧ page.stop = r.start + hi ∧
        page.nextToken = remintBackwardToken codec page.start ∧
      page.prevToken = r.prevToken.map fun _ => remintForwardToken codec page.stop log.length := by
  have hst := h.stop_le
  have hle := hk.hi_le
  rw [length_map, length_extract log _ hst] at hle
  have hse := h.le
  have hlo := hk.le
  have hhi : r.start + hi ≤ r.stop := by omega
  have hw : serveWindow codec budget log r =
      ⟨r.start + lo, r.start + hi, log.extract (r.start + lo) (r.start + hi),
      remintBackwardToken codec (r.start + lo),
      r.prevToken.map fun _ => remintForwardToken codec (r.start + hi) log.length⟩ := by
    unfold Resolved.kept at hke
    simp only [serveWindow, hke]
    split
    next => rw [extract_extract log hhi]
    next hw =>
      obtain ⟨rfl, rfl⟩ := Prod.mk.inj (not_not.mp hw)
      rw [length_extract log _ hst, add_zero, Nat.add_sub_cancel' hse, ← h.next_eq, ← h.prev_eq]
  refine ⟨_, by rw [getConversation, hre, map_some, hw],
    ⟨by dsimp only; omega, by dsimp only; omega, rfl, ?_⟩, rfl, rfl, rfl, rfl⟩
  dsimp only
  rcases hk.bounded with hone | hf
  · have hc := length_extract log (r.start + lo) (le_trans hhi hst)
    rcases le_one_iff_eq_zero_or_eq_one.mp hone with hz | hone
    · right
      rw [eq_nil_of_length_eq_zero (hc.trans (by omega)), map_nil, sum_nil, Nat.zero_min]
      exact zero_le _
    · exact .inl (by omega)
  · right
    rw [← extract_extract log hhi, drop_take, ← extract_eq_take_drop, extract_eq_take_drop,
      map_take, map_drop, ← extract_eq_take_drop]
    exact hf

/-- Where a page towards the oldest row stops. -/
def stopAt (codec : TokenCodec) (len : ℕ) (token : Option String) : ℕ :=
  match token.bind (backwardPageBoundary codec) with
  | none => len
  | some boundary => min boundary len

def IsOlder (codec : TokenCodec) (token : Option String) : Prop :=
  token = none ∨ ∃ b, token = some (codec.encodeToken (.backward b))

theorem stopAt_backward (codec : TokenCodec) (len b : ℕ) :
    stopAt codec len (some (codec.encodeToken (.backward b))) = min b len := by
  simp [stopAt, backwardPageBoundary, codec.decode_encode, Cursor.backward]

theorem stopAt_le (codec : TokenCodec) (len : ℕ) (token : Option String) :
    stopAt codec len token ≤ len := by
  rw [stopAt]
  split
  · exact le_refl _
  · exact min_le_right _ _

theorem resolve_older (h : IsOlder codec token) (log : List Row) (limit : Option ℤ) :
    resolve codec log limit (.page token) =
      some ⟨.newest, stopAt codec log.length token - clampLimit limit,
        stopAt codec log.length token,
        remintBackwardToken codec (stopAt codec log.length token - clampLimit limit), none⟩ := by
  rcases h with rfl | ⟨b, rfl⟩
  · rfl
  · have hf : forwardPageWindow codec log.length limit (codec.encodeToken (.backward b)) =
        none := by
      rw [forwardPageWindow, codec.decode_encode]
      rfl
    rw [resolve, bind_some, hf]
    rfl

theorem older_page (h : IsOlder codec token) (budget : ℕ) (log : List Row) (limit : Option ℤ) :
    ∃ page, getConversation codec budget log limit (.page token) = some page ∧ page.Of log budget ∧
      page.stop = stopAt codec log.length token ∧ (0 < page.stop → page.start < page.stop) ∧
      page.nextToken = remintBackwardToken codec page.start := by
  have hpos := clampLimit_pos limit
  have hs := stopAt_le codec log.length token
  obtain ⟨hk, hall⟩ :=
    budgetPage_newest ((log.extract (stopAt codec log.length token - clampLimit limit)
    (stopAt codec log.length token)).map Row.size) budget
  obtain ⟨page, hp, hof, hlo, hhi, hne, -⟩ :=
    served (resolve_older h log limit) ⟨sub_le _ _, hs, rfl, rfl⟩ hk rfl
  have hf := hk.filled
  rw [length_map, length_extract log _ hs] at hall hf
  dsimp only at hlo hhi
  exact ⟨page, hp, hof, by omega, by omega, hne⟩

theorem newer_page (hf : f < log.length) (codec : TokenCodec) (budget : ℕ) (limit : Option ℤ) :
    ∃ page, getConversation codec budget log limit (.page (some (codec.encodeToken (.forward f)))) =
      some page ∧ page.Of log budget ∧ page.start = f ∧ f < page.stop ∧
      page.prevToken = some (remintForwardToken codec page.stop log.length) := by
  have hpos := clampLimit_pos limit
  have hre : resolve codec log limit (.page (some (codec.encodeToken (.forward f)))) =
      some ⟨.oldest, f, min (f + clampLimit limit) log.length, remintBackwardToken codec f,
        some (remintForwardToken codec (min (f + clampLimit limit) log.length) log.length)⟩ := by
    simp [resolve, forwardPageWindow, codec.decode_encode, Cursor.forward, seekWindow,
      min_eq_left (le_of_lt hf)]
  obtain ⟨hk, hfr⟩ :=
    budgetPage_oldest ((log.extract f (min (f + clampLimit limit) log.length)).map Row.size) budget
  obtain ⟨page, hp, hof, hlo, hhi, -, hpr⟩ :=
    served hre ⟨by dsimp only; omega, min_le_right _ _, rfl, rfl⟩ hk rfl
  have hfi := hk.filled
  rw [length_map, length_extract log _ (min_le_right _ _)] at hfi
  dsimp only at hlo hhi
  exact ⟨page, hp, hof, by omega, by omega, hpr⟩

/-- The row a seek asks for. -/
def Targets (log : List Row) (index : ℕ) : Request → Prop
  | .page _ => False
  | .aroundMessage id => log.findIdx? (fun row => row.id = id) = some index
  | .aroundIndex i => min i.toNat (log.length - 1) = index

theorem seek_page {request : Request} {index : ℕ} (hta : Targets log index request)
    (hin : index < log.length) (codec : TokenCodec) (budget : ℕ) (limit : Option ℤ) :
    ∃ page, getConversation codec budget log limit request = some page ∧ page.Of log budget ∧
      page.start ≤ index ∧ index < page.stop ∧
        page.nextToken = remintBackwardToken codec page.start ∧
      page.prevToken = some (remintForwardToken codec page.stop log.length) := by
  have hpos := clampLimit_pos limit
  have hre : resolve codec log limit request =
      some ⟨.target index, (pageWindowAround codec log.length limit index).start,
        (pageWindowAround codec log.length limit index).stop,
        (pageWindowAround codec log.length limit index).nextToken,
        some (pageWindowAround codec log.length limit index).prevToken⟩ := by
    cases request with
    | page token => exact hta.elim
    | aroundMessage id =>
      rw [resolve, show log.findIdx? (fun row => row.id = id) = some index from hta]
      rfl
    | aroundIndex i =>
      rw [resolve, show min i.toNat (log.length - 1) = index from hta]
  generalize hw : pageWindowAround codec log.length limit index = w at hre
  have hsto : w.stop = min (index - clampLimit limit / 2 + clampLimit limit) log.length := by
    rw [← hw, pageWindowAround, min_eq_left (le_of_lt hin)]
    rfl
  have hst : w.start = w.stop - clampLimit limit := by
    rw [← hw]
    rfl
  have hlo : index - w.start < ((log.extract w.start w.stop).map Row.size).length := by
    rw [length_map, length_extract log _ (by omega)]
    omega
  obtain ⟨hk, hbe, haf⟩ := budgetPage_target hlo
  obtain ⟨page, hp, hof, hs, hs', hne, hpr⟩ :=
    served hre ⟨by dsimp only; omega, by dsimp only; omega, by rw [← hw]; rfl, by rw [← hw]; rfl⟩ hk
      rfl
  dsimp only at hs hs'
  exact ⟨page, hp, hof, by omega, by omega, hne, hpr⟩

end Page

/-! ## Whole walks -/

variable {calls : Calls}

section Walks

variable {n a b fuel : ℕ} {short long : List Row} {page : Page}

theorem Calls.log_grows (calls : Calls) {m : ℕ} (h : n ≤ m) : calls.log n <+: calls.log m := by
  induction h with
  | refl => exact prefix_rfl
  | step _ ih => exact ih.trans (calls.grows _)

theorem take_of_grown (h : short <+: long) {k : ℕ} (hk : k ≤ short.length) :
    long.take k = short.take k := by
  obtain ⟨more, rfl⟩ := h
  exact take_append_of_le_length hk

theorem extract_of_grown (h : short <+: long) (hb : b ≤ short.length) :
    long.extract a b = short.extract a b := by
  rw [extract_eq_take_drop, extract_eq_take_drop, ← drop_take, ← drop_take, take_of_grown h hb]

theorem Page.Of.grown (h : page.Of short budget) (hg : short <+: long) : page.Of long budget :=
  ⟨h.le, le_trans h.stop_le hg.length_le,
    h.rows_eq.trans (extract_of_grown hg h.stop_le).symm, h.bounded⟩

theorem take_append_extract (log : List Row) (h : a ≤ b) :
    log.take a ++ log.extract a b = log.take b := by
  rw [extract_eq_take_drop, ← drop_take]
  have hs := take_append_drop a (log.take b)
  rwa [take_take, Nat.min_eq_left h] at hs

theorem extract_append_drop (log : List Row) (h : a ≤ b) :
    log.extract a b ++ log.drop b = log.drop a := by
  have hs := take_append_drop (b - a) (log.drop a)
  rwa [drop_drop, Nat.add_sub_cancel' h] at hs

theorem Page.Of.shrunk (h : page.Of long budget) (hg : short <+: long)
    (hs : page.stop ≤ short.length) : page.Of short budget :=
  ⟨h.le, hs, h.rows_eq.trans (extract_of_grown hg hs), h.bounded⟩

theorem olderRows_cons (page : Page) (pages : List Page) :
    olderRows (page :: pages) = olderRows pages ++ page.rows := by
  simp [olderRows]

theorem older_walk (codec : TokenCodec) (budget : ℕ)
    (hgr : log <+: calls.log 0) (h : IsOlder codec token)
    (hle : stopAt codec (calls.log 0).length token ≤ log.length)
    (hfu : stopAt codec (calls.log 0).length token < fuel) :
    ∃ pages, follow (serveOlder codec budget calls) fuel 0 token = some pages ∧
      olderRows pages = log.take (stopAt codec (calls.log 0).length token) ∧ ∀ page ∈ pages,
        page.Of log budget := by
  refine follow_ends
    (I := fun n token => IsOlder codec token ∧ stopAt codec (calls.log n).length token ≤ log.length)
    (Q := fun n token pages =>
      olderRows pages = log.take (stopAt codec (calls.log n).length token) ∧
      ∀ page ∈ pages, page.Of log budget)
    (fun n token => stopAt codec (calls.log n).length token) ?_ ⟨h, hle⟩ hfu
  rintro n token ⟨hold, hle⟩
  obtain ⟨page, hpa, hof, hst, hles, hne⟩ := older_page hold budget (calls.log n) (calls.limit n)
  have hof' := hof.shrunk (hgr.trans (calls.log_grows (zero_le n))) (hst ▸ hle)
  have hro : log.take page.start ++ page.rows =
      log.take (stopAt codec (calls.log n).length token) := by
    rw [hof'.rows_eq, take_append_extract _ hof'.le, hst]
  have hmo : ∀ token', page.nextToken.map some = some token' →
      IsOlder codec token' ∧ stopAt codec (calls.log (n + 1)).length token' = page.start ∧
        0 < page.start := by
    intro token' hto
    obtain ⟨text, hte, rfl⟩ := map_eq_some_iff.mp hto
    rw [hne] at hte
    obtain ⟨rfl, hpos⟩ := remintBackwardToken_eq_some hte
    refine ⟨Or.inr ⟨_, rfl⟩, ?_, hpos⟩
    rw [stopAt_backward]
    exact min_eq_left (le_trans hof.le (le_trans hof.stop_le (calls.grows n).length_le))
  refine ⟨page, page.nextToken.map some, ⟨by rw [serveOlder, hpa]; rfl, fun hno => ?_,
    fun token' hto => ?_⟩, fun token' hto => ?_⟩
  · -- the last page starts at the oldest row
    rw [map_eq_none_iff, hne] at hno
    rw [remintBackwardToken_eq_none hno, take_zero, nil_append] at hro
    exact ⟨by simpa [olderRows] using hro, by simpa using hof'⟩
  · obtain ⟨hol', hst', -⟩ := hmo token' hto
    rw [hst']
    refine ⟨⟨hol', le_trans hof'.le hof'.stop_le⟩, fun rest hre => ⟨?_, ?_⟩⟩
    · rw [olderRows_cons, hre.1, hro]
    · exact forall_mem_cons.mpr ⟨hof', hre.2⟩
  · obtain ⟨-, hst', hpos⟩ := hmo token' hto
    rw [hst', ← hst]
    exact hles (lt_of_lt_of_le hpos hof.le)

/-- Where a page towards the newest row starts. -/
def startAt (codec : TokenCodec) (token : Option String) : ℕ :=
  ((token.bind codec.decodeToken).bind Cursor.f).getD 0

def IsNewer (codec : TokenCodec) (calls : Calls) (n : ℕ) (token : Option String) : Prop :=
  token = some (codec.encodeToken (.forward (startAt codec token))) ∧
    startAt codec token < (calls.log n).length

theorem isNewer_forward (hf : f < (calls.log n).length) :
    IsNewer codec calls n (some (codec.encodeToken (.forward f))) ∧
      startAt codec (some (codec.encodeToken (.forward f))) = f := by
  have hs : startAt codec (some (codec.encodeToken (.forward f))) = f := by
    simp [startAt, codec.decode_encode, Cursor.forward]
  refine ⟨⟨by rw [hs], ?_⟩, hs⟩
  rwa [hs]

theorem newer_step (codec : TokenCodec) (budget : ℕ) (calls : Calls)
    (h : IsNewer codec calls n token) :
    ∃ page next, serveNewer codec budget calls n token = some (page, next) ∧
      page.Of (calls.log n) budget ∧ page.start = startAt codec token ∧ page.start < page.stop ∧
      (next = none → page.stop = (calls.log n).length) ∧
      ∀ token', next = some token' → IsNewer codec calls (n + 1) token' ∧
        startAt codec token' = page.stop := by
  obtain ⟨page, hp, hof, hs, hst, hpr⟩ := newer_page h.2 codec budget (calls.limit n)
  rw [← h.1] at hp
  refine ⟨page, page.prevToken.join.map some, by rw [serveNewer, hp]; rfl, hof, hs,
    hs ▸ hst, ?_, ?_⟩
  · intro hn
    rw [hpr, join_some, map_eq_none_iff] at hn
    exact le_antisymm hof.stop_le (remintForwardToken_eq_none hn)
  · intro token' hto
    obtain ⟨text, ht, rfl⟩ := map_eq_some_iff.mp hto
    rw [hpr, join_some] at ht
    obtain ⟨rfl, hlt⟩ := remintForwardToken_eq_some ht
    exact isNewer_forward (lt_of_lt_of_le hlt (calls.grows n).length_le)

/-- The pages from `f` on serve what is after it in the log of the last call. -/
def ServesAfter (budget : ℕ) (calls : Calls) (f n : ℕ) (pages : List Page) : Prop :=
  pages.flatMap Page.rows = (calls.log (n + pages.length - 1)).drop f ∧
    ∀ page ∈ pages, page.Of (calls.log (n + pages.length - 1)) budget

theorem ServesAfter.last (hof : page.Of (calls.log n) budget)
    (hs : page.stop = (calls.log n).length) : ServesAfter budget calls page.start n [page] := by
  constructor
  · have hr := extract_append_drop (calls.log n) hof.le
    rw [hs, drop_length, append_nil] at hr
    rw [flatMap_singleton, hof.rows_eq, hs]
    exact hr
  · simpa using hof

theorem ServesAfter.cons {rest : List Page} (hof : page.Of (calls.log n) budget)
    (hr : ServesAfter budget calls page.stop (n + 1) rest) :
    ServesAfter budget calls page.start n (page :: rest) := by
  have hl : n + (page :: rest).length - 1 = n + 1 + rest.length - 1 := by
    rw [length_cons]
    omega
  rw [ServesAfter, hl]
  have hof' := hof.grown (calls.log_grows (show n ≤ n + 1 + rest.length - 1 by omega))
  refine ⟨?_, forall_mem_cons.mpr ⟨hof', hr.2⟩⟩
  rw [flatMap_cons, hr.1, hof'.rows_eq, extract_append_drop _ hof'.le]

theorem newer_walk_step (codec : TokenCodec) (budget : ℕ) (calls : Calls) (n : ℕ)
    (token : Option String) (h : IsNewer codec calls n token) :
    ∃ page next, Step (serveNewer codec budget calls) (IsNewer codec calls)
      (fun n token pages => ServesAfter budget calls (startAt codec token) n pages) n
        token page next ∧ page.Of (calls.log n) budget ∧ ∀ token', next = some token' →
        startAt codec token < startAt codec token' ∧
        startAt codec token' ≤ (calls.log n).length := by
  obtain ⟨page, next, hse, hof, hs, hlt, hl, hm⟩ := newer_step codec budget calls h
  refine ⟨page, next, ⟨hse, fun hno => ?_, fun token' ht => ?_⟩, hof, fun token' ht => ?_⟩
  · rw [← hs]
    exact .last hof (hl hno)
  · obtain ⟨hn, hnow⟩ := hm token' ht
    refine ⟨hn, fun rest hr => ?_⟩
    rw [hnow] at hr
    rw [← hs]
    exact .cons hof hr
  · rw [(hm token' ht).2, ← hs]
    exact ⟨hlt, hof.stop_le⟩

theorem newer_walk (h : IsNewer codec calls 0 token) {pages : List Page}
    (hw : follow (serveNewer codec budget calls) fuel 0 token = some pages) :
    ServesAfter budget calls (startAt codec token) 0 pages := by
  exact (follow_sound (fun n token hn => by
    obtain ⟨page, next, hs, -⟩ := newer_walk_step codec budget calls n token hn
    exact ⟨page, next, hs⟩) h hw :)

theorem newer_walk_ends (h : IsNewer codec calls 0 token) {bound : ℕ}
    (hb : ∀ n, (calls.log n).length ≤ bound) :
    ∃ pages, follow (serveNewer codec budget calls) (bound + 1) 0 token = some pages := by
  have he := follow_ends (fun _ token => bound - startAt codec token) (fun n token hn => by
    obtain ⟨page, next, hs, -, hd⟩ := newer_walk_step codec budget calls n token hn
    refine ⟨page, next, hs, fun token' ht => ?_⟩
    have hl := hd token' ht
    have hle := hb n
    omega) h (lt_succ_of_le (sub_le _ _))
  exact he.imp fun _ h => h.1

theorem log_lastLog (h : log <+: calls.log 0) (n : ℕ) : log <+: lastLog log calls n := by
  cases n with
  | zero => exact prefix_rfl
  | succ n => exact h.trans (calls.log_grows (zero_le n))

theorem older_continues (hof : page.Of log budget)
    (hn : page.nextToken = remintBackwardToken codec page.start) (hg : log <+: calls.log 0) :
    ∃ older, continued (serveOlder codec budget calls) (log.length + 1) page.nextToken =
      some older ∧ olderRows older = log.take page.start ∧ ∀ p ∈ older, p.Of log budget := by
  rw [hn]
  cases ht : remintBackwardToken codec page.start with
  | none =>
    rw [remintBackwardToken_eq_none ht]
    exact ⟨[], rfl, rfl, by simp⟩
  | some token =>
    obtain ⟨rfl, -⟩ := remintBackwardToken_eq_some ht
    have hle : page.start ≤ log.length := le_trans hof.le hof.stop_le
    have hs : stopAt codec (calls.log 0).length (some (codec.encodeToken (.backward page.start))) =
        page.start := by
      rw [stopAt_backward]
      exact min_eq_left (le_trans hle hg.length_le)
    obtain ⟨older, ho, hr, hall⟩ := older_walk codec budget hg (Or.inr ⟨page.start, rfl⟩)
      (le_trans (le_of_eq hs) hle) (lt_succ_of_le (le_trans (le_of_eq hs) hle))
    rw [hs] at hr
    exact ⟨older, ho, hr, hall⟩

theorem newer_continues (hp : page.prevToken = some (remintForwardToken codec page.stop log.length))
    (hg : log <+: calls.log 0) {newer : List Page}
    (hn : continued (serveNewer codec budget calls) fuel page.prevToken.join = some newer) :
    (∀ p ∈ newer, p.Of (lastLog log calls newer.length) budget) ∧
      newer.flatMap Page.rows = (lastLog log calls newer.length).drop page.stop := by
  rw [hp, join_some] at hn
  cases ht : remintForwardToken codec page.stop log.length with
  | none =>
    rw [ht] at hn
    cases hn
    have hend := remintForwardToken_eq_none ht
    exact ⟨by simp, (drop_eq_nil_of_le hend).symm⟩
  | some token =>
    obtain ⟨rfl, hlt⟩ := remintForwardToken_eq_some ht
    rw [ht] at hn
    obtain ⟨hf, hst⟩ := isNewer_forward (lt_of_lt_of_le hlt hg.length_le)
    have hs := newer_walk hf hn
    rw [hst] at hs
    cases newer with
    | nil => exact absurd rfl (follow_ne_nil hn)
    | cons p rest =>
      have hl : 0 + (p :: rest).length - 1 = rest.length := by
        rw [length_cons]
        omega
      rw [ServesAfter, hl] at hs
      exact ⟨hs.2, hs.1⟩

theorem conversation_pages_cover (codec : TokenCodec) (budget : ℕ) :
    -- backward from the newest page
    (∀ calls : Calls, ∃ pages,
      follow (serveOlder codec budget calls) ((calls.log 0).length + 1) 0 none = some pages ∧
      olderRows pages = calls.log 0 ∧ ∀ page ∈ pages, page.Of (calls.log 0) budget) ∧
    -- from a seek page in both directions
    ∀ log limit request index, Targets log index request → index < log.length →
      ∃ page, getConversation codec budget log limit request = some page ∧ page.Of log budget ∧
        page.start ≤ index ∧ index < page.stop ∧
        ∀ before after : Calls, log <+: before.log 0 → log <+: after.log 0 →
          (∃ older, continued (serveOlder codec budget before) (log.length + 1) page.nextToken =
            some older ∧ (∀ p ∈ older, p.Of log budget) ∧
            ∀ fuel newer, continued (serveNewer codec budget after) fuel page.prevToken.join =
              some newer → (∀ p ∈ newer, p.Of (lastLog log after newer.length) budget) ∧
              olderRows older ++ page.rows ++ newer.flatMap Page.rows =
                lastLog log after newer.length) ∧ ∀ bound, (∀ n, (after.log n).length ≤ bound) →
            ∃ newer, continued (serveNewer codec budget after) (bound + 1) page.prevToken.join =
              some newer := by
  constructor
  · intro calls
    have hst : stopAt codec (calls.log 0).length none = (calls.log 0).length := rfl
    obtain ⟨pages, hpa, hro, hof⟩ :=
      older_walk codec budget (prefix_refl (calls.log 0)) (Or.inl rfl)
      (le_of_eq hst) (lt_succ_of_le (le_of_eq hst))
    rw [hst, take_length] at hro
    exact ⟨pages, hpa, hro, hof⟩
  intro log limit request index hta hin
  obtain ⟨page, hpag, hof, hsta, hst, hnex, hpr⟩ := seek_page hta hin codec budget limit
  refine ⟨page, hpag, hof, hsta, hst, fun before after hbe haf => ⟨?_, fun bound hbo => ?_⟩⟩
  · obtain ⟨older, hol, hro, hall⟩ := older_continues hof hnex hbe
    refine ⟨older, hol, hall, fun fuel newer hne => ?_⟩
    obtain ⟨hal', hro'⟩ := newer_continues hpr haf hne
    have hgr : log <+: lastLog log after newer.length := log_lastLog haf _
    refine ⟨hal', ?_⟩
    rw [hro, hof.rows_eq, hro', ← take_of_grown hgr (le_trans hof.le hof.stop_le),
      ← extract_of_grown hgr hof.stop_le, take_append_extract _ hof.le, take_append_drop]
  · rw [hpr, join_some]
    cases hto : remintForwardToken codec page.stop log.length with
    | none => exact ⟨[], rfl⟩
    | some token =>
      obtain ⟨rfl, hlt⟩ := remintForwardToken_eq_some hto
      exact newer_walk_ends (isNewer_forward (lt_of_lt_of_le hlt haf.length_le)).1 hbo

example :
    (getConversation default 250 [⟨"a", 100⟩, ⟨"b", 100⟩, ⟨"c", 100⟩, ⟨"d", 100⟩] none
      (.page none)).map Page.rows = some [⟨"c", 100⟩, ⟨"d", 100⟩] := by decide

/-- A log of three rows, to which a row is added at every call. -/
def growing : Calls where
  log n := [⟨"a", 100⟩, ⟨"b", 100⟩, ⟨"c", 100⟩] ++ replicate n ⟨"d", 100⟩
  limit _ := none
  grows _ := (prefix_append_right_inj _).mpr (replicate_succ' ▸ prefix_append _ _)

theorem conversation_pages_cover_growing :
    (follow (serveOlder default 250 growing) 4 0 none).map (·.map Page.rows) =
        some [[⟨"b", 100⟩, ⟨"c", 100⟩], [⟨"a", 100⟩]] ∧
      ∃ pages, follow (serveOlder default 250 growing) 4 0 none = some pages ∧
        olderRows pages = growing.log 0 ∧ ∀ page ∈ pages, page.Of (growing.log 0) 250 :=
  ⟨by decide +kernel, (conversation_pages_cover default 250).1 growing⟩

end Walks

end Intentd.ConversationPages
