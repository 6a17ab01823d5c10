import Intentd.FoldedRuns
import Mathlib.Data.List.TakeWhile

/-!
# Git sessions at head

A machine opens git sessions on its link's git connection, and head runs a task for each of them.
The connection's loop takes the machine's messages one by one and keeps a table of the sessions by
the id the machine chose. A task takes what is sent for it from a queue of its own. When it is over
its result waits until the loop collects it, and the id in the result tells which entry of the table
to drop.

A machine may close a session and open the id again before the loop has collected the result of the
first one. The entry that is then dropped belongs to another session.
-/
namespace Intentd.HeadGitSessions
open FoldedRuns List

structure Message where
  kind : UInt8
  session : UInt32
  payload : List UInt8
deriving DecidableEq

namespace Kind

def opening : UInt8 := 1
def accept : UInt8 := 2
def data : UInt8 := 3
def eof : UInt8 := 4
def close : UInt8 := 5

end Kind

def chunk : ℕ := 64 * 1024
def maxSessions : ℕ := 8
def sessionQueue : ℕ := 16

inductive Code
  | denied
  | busy
  | invalid
  | failed
  | unavailable
deriving DecidableEq

def Code.text : Code → String
  | .denied => "node-git-denied"
  | .busy => "node-git-busy"
  | .invalid => "node-git-invalid"
  | .failed => "node-git-failed"
  | .unavailable => "node-git-unavailable"

def fromBeBytes (a b c d : UInt8) : UInt32 :=
  .ofNat (a.toNat * 0x1000000 + b.toNat * 0x10000 + c.toNat * 0x100 + d.toNat)

def decode : List UInt8 → Option Message
  | kind :: a :: b :: c :: d :: payload => some ⟨kind, fromBeBytes a b c d, payload⟩
  | _ => none

/-- How head's status of a closed session is written and read. -/
structure StatusCodec where
  toVec : Option Code → List UInt8
  fromSlice : List UInt8 → Option (Option String)
  fromSlice_toVec : ∀ error, fromSlice (toVec error) = some (error.map Code.text)

def statusJson (error : Option Code) : List UInt8 :=
  (error.elim "\x7b\x7d" fun code => "\x7b\"error\":\"" ++ code.text ++ "\"\x7d").toList.map
    fun c => .ofNat c.toNat

/-- A codec that reads no other JSON than head writes. -/
def jsonStatus : StatusCodec where
  toVec := statusJson
  fromSlice bytes :=
    ([none, some .denied, some .busy, some .invalid, some .failed, some .unavailable].find?
      fun error => statusJson error = bytes).map (Option.map Code.text)
  fromSlice_toVec error := by
    rcases error with _ | _ | _ | _ | _ | _ <;> decide +kernel

inductive Input
  | reading
  | done
  | broken
deriving DecidableEq

/-- How far a session's task is. `opening` is all of `run_service` before ACCEPT, `closing` what is
left once the service is over. A task that returned has its result in the join set. -/
inductive Phase
  | opening
  | streaming
  | closing (error : Option Code)
  | returned
  | cancelled
  | joined
deriving DecidableEq

/-- A session's task, with the entry that the table of sessions has for it. `opened` is the place of
its OPEN among the machine's messages, `waiting` a payload that the loop holds until the queue has
room, and `writing` the rest of the payload that is being written to the service. -/
structure Task where
  session : UInt32
  opened : ℕ
  listed : Bool
  stdin : Bool
  waiting : Option (List UInt8)
  inbox : List (List UInt8)
  writing : List UInt8
  given : List UInt8
  input : Input
  phase : Phase
  aborted : Bool
deriving DecidableEq

def Task.spawn (session : UInt32) (opened : ℕ) : Task :=
  ⟨session, opened, true, true, none, [], [], [], .reading, .opening, false⟩

variable (t : Task)

def Task.isWorking : Bool :=
  match t.phase with
  | .opening => true
  | .streaming => true
  | .closing _ => true
  | _ => false

/-- The session's queue still has its receiver. -/
@[simp] def Task.isReceiving : Bool := t.phase = .opening ∨ t.phase = .streaming ∧
    t.input = .reading

def Task.isLive : Bool := t.isWorking && !t.aborted

/-- The table has the task under an id. -/
def Task.isAt (session : UInt32) (t : Task) : Bool := t.listed ∧ t.session = session

/-- The loop of a connection: its tasks, what the machine sent and what head sent. -/
structure Head where
  tasks : List Task
  log : List Message
  sent : List Message
  isOpen : Bool
deriving DecidableEq

inductive AccessError
  | internal (message : String)
  | invalidParams (message : String)
  | other
deriving DecidableEq

def accessCode : AccessError → Code
  | .internal message =>
    if Code.unavailable.text.toList.isPrefixOf message.toList then .unavailable else .denied
  | .invalidParams message => if message = Code.invalid.text then .invalid else .denied
  | .other => .denied

inductive Start
  | malformed
  | refused (error : AccessError)
  | notSpawned
  | acceptUnsent
  | accepted
deriving DecidableEq

def Start.error : Start → Option Code
  | .malformed => some Code.invalid
  | .refused error => some (accessCode error)
  | .notSpawned => some Code.failed
  | .acceptUnsent => some Code.unavailable
  | .accepted => none

inductive Ending
  | readFailed
  | outputUnsent
  | waitFailed
  | exited (success : Bool)
deriving DecidableEq

def Ending.error : Ending → Option Code
  | .readFailed => some Code.failed
  | .outputUnsent => some Code.unavailable
  | .waitFailed => some Code.failed
  | .exited success => if success then none else some Code.failed

/-- What happens next: the loop takes a message, puts a payload into a queue or collects a result, a
task makes a step, or the loop is dropped. A task is named by the place of its OPEN. -/
inductive Act
  | message (bytes : Option (List UInt8))
  | deliver
  | join (opened : ℕ)
  | start (opened : ℕ) (start : Start)
  | take (opened : ℕ)
  | write (opened n : ℕ)
  | writeFails (opened : ℕ)
  | output (opened : ℕ) (bytes : List UInt8)
  | finish (opened : ℕ) (ending : Ending)
  | close (opened : ℕ)
  | cancel (opened : ℕ)
  | drop
deriving DecidableEq

section Model

variable (status : StatusCodec)

def Head.initial : Head := ⟨[], [], [], true⟩

def closeMessage (session : UInt32) (error : Option Code) : Message :=
  ⟨Kind.close, session, status.toVec error⟩

variable (t : Task)

/-- The entry leaves the table, and the sender in it goes too. -/
def Task.unlist : Task := { t with listed := false, stdin := false }

def Task.stop : Task := { t.unlist with waiting := none, aborted := true }

/-- The loop ends. Its join set goes with it, and so do the tasks. -/
def Head.stop (h : Head) : Head := { h with tasks := h.tasks.map Task.stop, isOpen := false }

def Head.send (h : Head) (m : Message) : Head :=
  if h.isOpen then { h with sent := h.sent ++ [m] } else h

def Head.update (h : Head) (p : Task → Bool) (f : Task → Task) : Head :=
  { h with tasks := h.tasks.map fun t => if p t then f t else t }

def Task.hold (payload : List UInt8) (t : Task) : Task :=
  if t.stdin then { t with waiting := some payload } else t

def Head.handle (h : Head) (m : Message) : Head :=
  if m.kind = Kind.opening then
    if h.tasks.any (Task.isAt m.session) then h.stop
    else if maxSessions ≤ h.tasks.countP Task.listed then
      h.send (closeMessage status m.session (some .busy))
    else { h with tasks := h.tasks ++ [.spawn m.session (h.log.length - 1)] }
  else if m.kind = Kind.data then h.update (Task.isAt m.session) (Task.hold m.payload)
  else if m.kind = Kind.eof then h.update (Task.isAt m.session) fun t => { t with stdin := false }
  else if m.kind = Kind.close then h.update (Task.isAt m.session) fun t =>
    { t.unlist with aborted := true }
  else h.stop

/-- The payload goes into the queue once there is room, and nowhere once the receiver is gone. -/
def Task.deliver : Task :=
  match t.waiting with
  | none => t
  | some payload =>
    if t.isReceiving then
      if t.inbox.length <
        sessionQueue then { t with waiting := none, inbox := t.inbox ++ [payload] } else t
    else { t with waiting := none }

def Task.start (t : Task) (start : Start) : Task :=
  if t.phase = .opening then
    match start.error with
    | none => { t with phase := .streaming }
    | some code => { t with phase := .closing (some code) }
  else t

/-- The input half takes the next payload, or ends with the queue. -/
def Task.take : Task :=
  if t.phase = .streaming ∧ t.input = .reading ∧ t.writing = [] then
    match t.inbox with
    | payload :: inbox => { t with writing := payload, inbox }
    | [] => if t.stdin ∨ t.waiting ≠ none then t else { t with input := .done }
  else t

def Task.write (n : ℕ) : Task :=
  if t.phase = .streaming ∧ t.input = .reading then
    { t with given := t.given ++ t.writing.take n, writing := t.writing.drop n }
  else t

def Task.writeFails : Task :=
  if t.phase = .streaming ∧ t.input = .reading then { t with input := .broken } else t

def Task.finish (ending : Ending) : Task :=
  if t.phase = .streaming then { t with phase := .closing ending.error } else t

def Task.close : Task :=
  match t.phase with
  | .closing _ => { t with phase := .returned }
  | _ => t

def Task.cancel : Task := if t.isWorking ∧ t.aborted then { t with phase := .cancelled } else t

def Task.join : Task :=
  if t.phase = .returned ∨ t.phase = .cancelled then { t with phase := .joined } else t

def Task.step : Act → Task
  | .start _ start => t.start start
  | .take _ => t.take
  | .write _ n => t.write n
  | .writeFails _ => t.writeFails
  | .finish _ ending => t.finish ending
  | .close _ => t.close
  | .cancel _ => t.cancel
  | .join _ => t.join
  | _ => t

def Task.sends : Act → Option Message
  | .start _ start =>
    if t.phase = .opening ∧ start.error = none then some ⟨Kind.accept, t.session, []⟩ else none
  | .output _ bytes =>
    if t.phase = .streaming ∧ bytes ≠ [] ∧ bytes.length ≤ chunk then some ⟨Kind.data, t.session,
      bytes⟩ else none
  | .close _ =>
    match t.phase with
    | .closing error => some (closeMessage status t.session error)
    | _ => none
  | _ => none

def Head.task (h : Head) (opened : ℕ) : Option Task := h.tasks.find? fun t => t.opened = opened

def Head.work (h : Head) (opened : ℕ) (act : Act) : Head :=
  (((h.task opened).bind (Task.sends status · act)).elim h h.send).update (fun t =>
    t.opened = opened) (Task.step · act)

/-- The loop collects the result of a task, and drops the entry under the id in it. -/
def Head.join (h : Head) (opened : ℕ) : Head :=
  match h.task opened with
  | none => h
  | some t =>
    (if t.phase = .returned then h.update (Task.isAt t.session) Task.unlist else h).work status
      opened (.join opened)

def Head.step (h : Head) (act : Act) : Head :=
  let ready := h.isOpen ∧ h.tasks.all fun t => t.waiting = none
  match act with
  | .message bytes =>
    if ready then
      match bytes.bind decode with
      | none => h.stop
      | some m => { h with log := h.log ++ [m] }.handle status m
    else h
  | .deliver => if h.isOpen then h.update (fun _ => true) Task.deliver else h
  | .join opened => if ready then h.join status opened else h
  | .drop => h.stop
  | .start opened _ | .take opened | .write opened _ | .writeFails opened | .output opened _
  | .finish opened _ | .close opened | .cancel opened => h.work status opened act

def Head.run (acts : List Act) : Head := acts.foldl (Head.step status) .initial

end Model

/-- The DATA payloads for a session among messages, up to its next message of another kind. -/
def own (session : UInt32) (msgs : List Message) : List (List UInt8) :=
  ((msgs.filter fun m => m.session = session).takeWhile fun m => m.kind = Kind.data).map
    Message.payload

/-- What the machine sent since the session's OPEN. -/
def Task.since (log : List Message) : List Message := log.drop (t.opened + 1)

/-- The bytes the machine sent for a session, from its OPEN to its EOF or CLOSE. -/
def Task.own (t : Task) (log : List Message) : List UInt8 :=
  (HeadGitSessions.own t.session (t.since log)).flatten

/-- The bytes for the service that are on their way or with it. -/
@[simp] def Task.bytes : List UInt8 := t.given ++ t.writing ++ t.inbox.flatten

/-- Sessions stay apart and within their limit. What a service was given is what the machine sent
for its session so far, up to what is still on its way, unless the service or the connection ended.
-/
structure Head.Sound (h : Head) : Prop where
  limit : h.tasks.countP Task.isLive ≤ maxSessions
  opened : ∀ t ∈ h.tasks, ∃ payload, h.log[t.opened]? = some ⟨Kind.opening, t.session, payload⟩
  given : ∀ t ∈ h.tasks, t.given <+: t.own h.log
  flow : h.isOpen → ∀ t ∈ h.tasks, t.isReceiving → t.bytes ++ t.waiting.getD [] = t.own h.log
  whole : h.isOpen → ∀ t ∈ h.tasks, t.input = .done → t.given = t.own h.log
  answers : ∀ m ∈ h.sent, ∃ m' ∈ h.log, m'.kind = Kind.opening ∧ m'.session = m.session

/-- No session that is still running is in the table under the id of a result that is collected. -/
def Clear (h : Head) : Act → Prop
  | .join opened => ∀ t ∈ h.task opened, t.phase = .returned → ∀ t' ∈ h.tasks, t'.isAt t.session →
      t'.isWorking = false
  | _ => True

instance decidableClear (h : Head) : (act : Act) → Decidable (Clear h act)
  | .join opened => inferInstanceAs <| Decidable <|
      ∀ t ∈ h.task opened, t.phase = .returned → ∀ t' ∈ h.tasks, t'.isAt t.session →
        t'.isWorking = false
  | .message _ | .deliver | .start _ _ | .take _ | .write _ _ | .writeFails _ | .output _ _
  | .finish _ _ | .close _ | .cancel _ | .drop => .isTrue trivial

/-! ## What is sent for a session -/

/-- Every message for the session so far was DATA. -/
def Task.Active (log : List Message) : Prop := ∀ m ∈ t.since log, m.session = t.session →
    m.kind = Kind.data

variable {session : UInt32} {log : List Message} {m : Message}

section Own

variable {msgs : List Message} {t : Task}

theorem own_snoc_of_active (ha : ∀ m ∈ msgs, m.session = session → m.kind = Kind.data)
    (m : Message) :
    own session (msgs ++ [m]) =
      own session msgs ++ if m.session = session ∧ m.kind = Kind.data then [m.payload] else [] := by
  have hall : ∀ m ∈ msgs.filter fun m => m.session = session,
      decide (m.kind = Kind.data) = true := by
    intro m hm
    have hm := mem_filter.mp hm
    exact decide_eq_true (ha m hm.1 (of_decide_eq_true hm.2))
  unfold own
  rw [filter_append, takeWhile_append_of_pos hall, map_append, takeWhile_eq_self_iff.mpr hall]
  congr 1
  by_cases hs : m.session = session <;> by_cases hk : m.kind = Kind.data <;> simp [hs, hk]

theorem own_append_of_not_active (ha : ¬ ∀ m ∈ msgs, m.session = session → m.kind = Kind.data)
    (later : List Message) : own session (msgs ++ later) = own session msgs := by
  unfold own
  rw [filter_append, takeWhile_append]
  rw [if_neg]
  intro hl
  apply ha
  intro m hm hs
  have hse := List.IsPrefix.eq_of_length ( takeWhile_prefix _) hl
  have := takeWhile_eq_self_iff.mp hse m (mem_filter.mpr ⟨hm, decide_eq_true hs⟩)
  exact of_decide_eq_true this

variable (h : t.opened < log.length)
include h

theorem Task.since_snoc (m : Message) : t.since (log ++ [m]) = t.since log ++ [m] := by
  unfold since
  rw [drop_append_of_le_length (by omega)]

theorem Task.active_snoc :
    t.Active (log ++ [m]) ↔ t.Active log ∧ (m.session = t.session → m.kind = Kind.data) := by
  unfold Task.Active
  rw [since_snoc h]
  simp [or_imp, forall_and]

theorem Task.own_snoc_of_active (ha : t.Active log) :
    t.own (log ++ [m]) = t.own log ++
      if m.session = t.session ∧ m.kind = Kind.data then m.payload else [] := by
  unfold own
  rw [since_snoc h, HeadGitSessions.own_snoc_of_active ha, flatten_append]
  split_ifs <;> simp

theorem Task.own_snoc_of_not_active (ha : ¬ t.Active log) : t.own (log ++ [m]) = t.own log := by
  unfold own
  rw [since_snoc h, own_append_of_not_active ha]

theorem Task.own_grows : t.own log <+: t.own (log ++ [m]) := by
  by_cases ha : t.Active log
  · rw [own_snoc_of_active h ha]
    exact prefix_append _ _
  · exact (own_snoc_of_not_active h ha).symm.subst prefix_rfl

theorem Task.own_snoc_of_other (ho : m.session = t.session → m.kind ≠ Kind.data) :
    t.own (log ++ [m]) = t.own log := by
  by_cases ha : t.Active log
  · rw [own_snoc_of_active h ha, if_neg fun hm => ho hm.1 hm.2, append_nil]
  · exact own_snoc_of_not_active h ha

end Own

/-! ## The invariant -/

structure Task.Ok (t : Task) (log : List Message) (isOpen : Bool) : Prop where
  opened : ∃ payload, log[t.opened]? = some ⟨Kind.opening, t.session, payload⟩
  given : t.bytes <+: t.own log
  live : isOpen → t.isLive → t.listed
  stdin : t.stdin → t.listed ∧ t.Active log
  fed : isOpen → t.isWorking → t.Active log → t.stdin
  flow : isOpen → t.isReceiving → t.bytes ++ t.waiting.getD [] = t.own log
  whole : isOpen → t.input = .done → ¬ t.Active log ∧ t.given = t.own log
  ended : isOpen = false → t.aborted

structure Inv (h : Head) : Prop where
  tasks : ∀ t ∈ h.tasks, t.Ok h.log h.isOpen
  few : h.tasks.countP Task.listed ≤ maxSessions
  alone : ∀ session, h.tasks.countP (Task.isAt session) ≤ 1
  answers : ∀ m ∈ h.sent, ∃ m' ∈ h.log, m'.kind = Kind.opening ∧ m'.session = m.session

section Steps

variable {status : StatusCodec} {h : Head} {t t' : Task} {isOpen : Bool} {f : Task → Task}
  {p : Task → Bool} {act : Act}

theorem Task.isReceiving_iff : t.isReceiving ↔ t.phase = .opening ∨ t.phase = .streaming ∧
    t.input = .reading := by
  simp

theorem Task.isWorking_of_isReceiving (h : t.isReceiving) : t.isWorking := by
  rcases Task.isReceiving_iff.mp h with hp | hp <;> simp [isWorking, hp]

theorem Inv.sound (hinv : Inv h) : h.Sound where
  limit := by
    refine (countP_mono_left fun t ht hl => ?_).trans hinv.few
    cases ho : h.isOpen with
    | true => exact (hinv.tasks t ht).live ho hl
    | false => simp [Task.isLive, (hinv.tasks t ht).ended ho] at hl
  opened := fun t ht => (hinv.tasks t ht).opened
  given := by
    intro t ht
    have hg := (hinv.tasks t ht).given
    rw [Task.bytes, append_assoc] at hg
    exact (prefix_append _ _).trans hg
  flow := fun ho t ht => (hinv.tasks t ht).flow ho
  whole := fun ho t ht hd => ((hinv.tasks t ht).whole ho hd).2
  answers := hinv.answers

structure Task.Leads (t t' : Task) : Prop where
  session : t'.session = t.session
  listed : t'.listed → t.listed

theorem Inv.map (hinv : Inv h) {h' : Head} (ht : h'.tasks = h.tasks.map f)
    (hlog : h.log ⊆ h'.log) (hs : h'.sent = h.sent) (hl : ∀ t : Task, t.Leads (f t))
    (hok : ∀ t ∈ h.tasks, (f t).Ok h'.log h'.isOpen) : Inv h' := by
  refine ⟨?_, ?_, fun session => ?_, ?_⟩
  · rw [ht]
    exact forall_mem_map.mpr hok
  · rw [ht, countP_map]
    exact (countP_mono_left fun t _ => (hl t).listed).trans hinv.few
  · rw [ht, countP_map]
    refine (countP_mono_left fun t _ hat => ?_).trans (hinv.alone session)
    simp only [Task.isAt, Function.comp_apply, decide_eq_true_eq, (hl t).session] at hat ⊢
    exact ⟨(hl t).listed hat.1, hat.2⟩
  · rw [hs]
    intro m hm
    obtain ⟨m', hm', ho⟩ := hinv.answers m hm
    exact ⟨m', hlog hm', ho⟩

theorem Inv.update (hinv : Inv h) (later : List Message) (hl : ∀ t : Task, t.Leads (f t))
    (hok : ∀ t ∈ h.tasks, (if p t then f t else t).Ok (h.log ++ later) h.isOpen) :
    Inv (({ h with log := h.log ++ later } : Head).update p f) := by
  refine hinv.map rfl (subset_append_left _ _) rfl (fun t => ?_) hok
  split_ifs
  · exact hl t
  · exact ⟨rfl, id⟩

theorem Task.Ok.opened_lt (hok : t.Ok log isOpen) : t.opened < log.length := by
  obtain ⟨payload, ho⟩ := hok.opened
  exact (List.getElem?_eq_some_iff.mp ho).1

theorem Task.Ok.opened_append (hok : t.Ok log isOpen) (later : List Message) :
    ∃ payload, (log ++ later)[t.opened]? = some ⟨Kind.opening, t.session, payload⟩ := by
  obtain ⟨payload, ho⟩ := hok.opened
  exact ⟨payload, (List.getElem?_append_left hok.opened_lt).trans ho⟩

/-- The connection ends, with or without a last message. -/
theorem Inv.stop (hinv : Inv h) (later : List Message)
    (hg : ∀ t ∈ h.tasks, t.own h.log <+: t.own (h.log ++ later)) :
    Inv ({ h with log := h.log ++ later } : Head).stop := by
  refine hinv.map rfl (subset_append_left _ _) rfl (fun t => ⟨rfl, nofun⟩) fun t ht => ?_
  have hok := hinv.tasks t ht
  constructor
  case opened => exact hok.opened_append later
  case given => exact hok.given.trans (hg t ht)
  case ended => exact fun _ => rfl
  all_goals exact nofun

/-! ### A task makes a step -/

/-- What one step of a task may do: it leaves what the service is to be given as it is, and ends its
input only when the queue has ended. -/
structure Task.Goes (t t' : Task) : Prop where
  same : t'.session = t.session ∧ t'.opened = t.opened ∧ t'.listed = t.listed ∧ t'.stdin = t.stdin ∧
    t'.waiting = t.waiting ∧ t'.aborted = t.aborted
  working : t'.isWorking → t.isWorking
  receiving : t'.isReceiving → t.isReceiving
  bytes : t'.bytes = t.bytes
  done : t'.input = .done → t'.given = t.given ∧
    (t.input = .done ∨ t.isReceiving ∧ t.stdin = false ∧ t.waiting = none ∧ t.bytes = t.given)

theorem Task.Goes.refl : t.Goes t :=
  ⟨⟨rfl, rfl, rfl, rfl, rfl, rfl⟩, id, id, rfl, fun hd => ⟨rfl, .inl hd⟩⟩

theorem Task.Goes.phase {phase : Phase} (hw : ({ t with phase } : Task).isWorking → t.isWorking)
    (hr : ({ t with phase } : Task).isReceiving → t.isReceiving) : t.Goes { t with phase } :=
  ⟨⟨rfl, rfl, rfl, rfl, rfl, rfl⟩, hw, hr, rfl, fun hd => ⟨rfl, .inl hd⟩⟩

theorem Task.take_goes : t.Goes t.take := by
  unfold take
  by_cases hr : t.phase = .streaming ∧ t.input = .reading ∧ t.writing = []
  · have hre := Task.isReceiving_iff.mpr (.inr ⟨hr.1, hr.2.1⟩)
    have hw := isWorking_of_isReceiving hre
    rw [if_pos hr]
    split
    · next payload inbox hin =>
        refine ⟨⟨rfl, rfl, rfl, rfl, rfl, rfl⟩, fun _ => hw, fun _ => hre, ?_, fun hd => ?_⟩
        · simp [hin, hr.2.2]
        · cases hr.2.1.symm.trans hd
    · next hin =>
        split_ifs with hs
        · exact .refl
        · simp only [not_or, not_not, Bool.not_eq_true] at hs
          refine ⟨⟨rfl, rfl, rfl, rfl, rfl, rfl⟩, fun _ => hw, fun _ => hre, rfl,
            fun _ => ⟨rfl, .inr ?_⟩⟩
          exact ⟨hre, hs.1, hs.2, by simp [hin, hr.2.2]⟩
  · rw [if_neg hr]
    exact .refl

theorem Task.write_goes (n : ℕ) : t.Goes (t.write n) := by
  unfold write
  split_ifs with hr
  · refine ⟨⟨rfl, rfl, rfl, rfl, rfl, rfl⟩, id, id, by simp, fun hd => ?_⟩
    cases hr.2.symm.trans hd
  · exact .refl

theorem Task.step_goes (act : Act) : t.Goes (t.step act) := by
  cases act with
  | take _ => exact take_goes
  | write _ n => exact write_goes n
  | start _ start =>
    simp only [Task.step, Task.start]
    split_ifs with hp
    · have hr := Task.isReceiving_iff.mpr (.inl hp)
      have hw := Task.isWorking_of_isReceiving hr
      split <;> exact .phase (fun _ => hw) fun _ => hr
    · exact .refl
  | writeFails _ =>
    simp only [Task.step, Task.writeFails]
    split_ifs with hre
    · exact ⟨⟨rfl, rfl, rfl, rfl, rfl, rfl⟩, id, fun _ => Task.isReceiving_iff.mpr (.inr hre),
        rfl, nofun⟩
    · exact .refl
  | finish _ ending =>
    simp only [Task.step, Task.finish]
    split_ifs with hp
    · exact .phase (fun _ => by simp [Task.isWorking, hp]) (by simp)
    · exact .refl
  | close _ | cancel _ | join _ =>
    simp only [Task.step, Task.close, Task.cancel, Task.join]
    split
    · exact .phase (by simp [Task.isWorking]) (by simp)
    · exact .refl
  | message _ | deliver | output _ _ | drop => exact .refl

theorem Task.Ok.goes (hok : t.Ok log isOpen) (hgo : t.Goes t') : t'.Ok log isOpen := by
  obtain ⟨hse, hope, hli, hst, hwa, hab⟩ := hgo.same
  have hown : t'.own log = t.own log := by
    unfold Task.own Task.since
    rw [hse, hope]
  have hac : t'.Active log ↔ t.Active log := by
    unfold Task.Active Task.since
    rw [hse, hope]
  refine ⟨?_, ?_, fun hop hliv => ?_, ?_, fun hop hwo => ?_, fun hop hre => ?_,
    fun hop hdo => ?_, ?_⟩
  · rw [hope, hse]
    exact hok.opened
  · rw [hgo.bytes, hown]
    exact hok.given
  · simp only [Task.isLive, Bool.and_eq_true, hab] at hliv
    rw [hli]
    exact hok.live hop (Bool.and_eq_true_iff.mpr ⟨hgo.working hliv.1, hliv.2⟩)
  · rw [hst, hli, hac]
    exact hok.stdin
  · rw [hac, hst]
    exact hok.fed hop (hgo.working hwo)
  · rw [hgo.bytes, hwa, hown]
    exact hok.flow hop (hgo.receiving hre)
  · rw [hac, hown]
    obtain ⟨hgi, hdo | ⟨hre, hsen, hno, hby⟩⟩ := hgo.done hdo
    · rw [hgi]
      exact hok.whole hop hdo
    · -- the queue has no sender left, and nothing in it
      have hfl := hok.flow hop hre
      rw [hno, hby] at hfl
      refine ⟨fun hact => ?_, hgi.trans ((append_nil _).symm.trans hfl)⟩
      cases hsen.symm.trans (hok.fed hop (Task.isWorking_of_isReceiving hre) hact)
  · rw [hab]
    exact hok.ended

theorem Task.Ok.deliver (hok : t.Ok log isOpen) (ho : isOpen) : t.deliver.Ok log isOpen := by
  unfold Task.deliver
  split
  · exact hok
  · next payload hw =>
      split_ifs with hr hro
      · have hb : ({ t with waiting := none, inbox := t.inbox ++ [payload] } : Task).bytes =
            t.own log := by
          rw [← hok.flow ho hr, hw]
          simp
        exact { hok with
          given := hb ▸ prefix_rfl
          flow := fun _ _ => (append_nil _).trans hb }
      · exact hok
      · exact { hok with flow := fun _ h => absurd h hr }

theorem Task.deliver_leads : t.Leads t.deliver := by
  unfold deliver
  split
  · exact ⟨rfl, id⟩
  · split_ifs <;> exact ⟨rfl, id⟩

theorem Task.sends_session (hm : t.sends status act = some m) : m.session = t.session := by
  cases act <;> simp only [sends] at hm
  case start | output => split_ifs at hm; cases hm; rfl
  case close =>
      split at hm
      · cases hm; rfl
      · cases hm
  all_goals cases hm

theorem Inv.send (hinv : Inv h)
    (hm : ∃ m' ∈ h.log, m'.kind = Kind.opening ∧ m'.session = m.session) : Inv (h.send m) := by
  unfold Head.send
  split_ifs
  · exact { hinv with answers := forall_mem_append.mpr ⟨hinv.answers, forall_mem_singleton.mpr hm⟩ }
  · exact hinv

theorem Inv.change (hinv : Inv h) (hl : ∀ t : Task, t.Leads (f t))
    (hok : ∀ t ∈ h.tasks, p t → (f t).Ok h.log h.isOpen) : Inv (h.update p f) := by
  have hu := hinv.update (p := p) [] hl fun t ht => ?_
  · simpa using hu
  · rw [append_nil]
    split_ifs with hp
    · exact hok t ht hp
    · exact hinv.tasks t ht

theorem Inv.work (hinv : Inv h) (status : StatusCodec) (opened : ℕ) (act : Act) :
    Inv (h.work status opened act) := by
  have hs : Inv (((h.task opened).bind (Task.sends status · act)).elim h h.send) := by
    cases hm : (h.task opened).bind (Task.sends status · act) with
    | none => exact hinv
    | some m =>
      obtain ⟨t, ht, hm⟩ := Option.bind_eq_some_iff.mp hm
      obtain ⟨payload, ho⟩ := (hinv.tasks t (mem_of_find?_eq_some ht)).opened
      exact hinv.send ⟨_, mem_of_getElem? ho, rfl, (Task.sends_session hm).symm⟩
  exact hs.change (fun t => ⟨(t.step_goes act).same.1, fun h => (t.step_goes act).same.2.2.1 ▸ h⟩)
    fun t ht _ => (hs.tasks t ht).goes (t.step_goes act)

theorem Inv.join (hinv : Inv h) {opened : ℕ} (hc : Clear h (.join opened)) :
    Inv (h.join status opened) := by
  unfold Head.join
  cases ht : h.task opened with
  | none => exact hinv
  | some t =>
    refine work ?_ status opened _
    split_ifs with hr
    · refine hinv.change (fun t => ⟨rfl, nofun⟩) fun t' ht' hat => ?_
      have hid := hc t ht hr t' ht' hat
      have hok := hinv.tasks t' ht'
      have hnot : ¬ t'.isWorking := by simp [hid]
      exact { hok with
        live := fun _ hl => absurd (Bool.and_eq_true_iff.mp hl).1 hnot
        stdin := nofun
        fed := fun _ hw => absurd hw hnot }
    · exact hinv

/-! ### A message of the machine -/

theorem Task.Ok.ignore (hok : t.Ok log true) (hno : t.stdin → m.session ≠ t.session) :
    t.Ok (log ++ [m]) true := by
  have hlt := hok.opened_lt
  have hown : t.isReceiving → t.own (log ++ [m]) = t.own log := by
    intro hr
    by_cases ha : t.Active log
    · have hs := hok.fed rfl (Task.isWorking_of_isReceiving hr) ha
      exact Task.own_snoc_of_other hlt fun hm => absurd hm (hno hs)
    · exact Task.own_snoc_of_not_active hlt ha
  refine ⟨hok.opened_append _, hok.given.trans (Task.own_grows hlt), hok.live, fun hs => ?_,
    fun _ hw ha => ?_, fun _ hr => ?_, fun _ hd => ?_, hok.ended⟩
  · exact ⟨(hok.stdin hs).1, (Task.active_snoc hlt).mpr ⟨(hok.stdin hs).2,
      fun hm => absurd hm (hno hs)⟩⟩
  · exact hok.fed rfl hw ((Task.active_snoc hlt).mp ha).1
  · rw [hown hr]
    exact hok.flow rfl hr
  · obtain ⟨ha, hg⟩ := hok.whole rfl hd
    rw [Task.own_snoc_of_not_active hlt ha, Task.active_snoc hlt]
    exact ⟨fun h => ha h.1, hg⟩

theorem Task.Ok.data (hok : t.Ok log true) (hw : t.waiting = none) (hs : t.stdin)
    (hse : m.session = t.session) (hk : m.kind = Kind.data) :
    ({ t with waiting := some m.payload } : Task).Ok (log ++ [m]) true := by
  have hlt := hok.opened_lt
  have ha := (hok.stdin hs).2
  have ha' := (Task.active_snoc hlt).mpr ⟨ha, fun _ => hk⟩
  refine ⟨hok.opened_append _, hok.given.trans (Task.own_grows hlt), hok.live,
    fun _ => ⟨(hok.stdin hs).1, ha'⟩,
    fun _ _ _ => hs, fun _ hr => ?_, fun _ hd => absurd ha (hok.whole rfl hd).1, hok.ended⟩
  have hf := hok.flow rfl hr
  rw [hw] at hf
  refine Eq.trans ?_ (Task.own_snoc_of_active hlt ha).symm
  rw [if_pos ⟨hse, hk⟩, ← hf]
  simp

theorem Task.Ok.cut (hok : t.Ok log true) (hs : m.session = t.session) (hk : m.kind ≠ Kind.data)
    {listed aborted : Bool} (hl : ({ t with aborted } : Task).isLive → listed) :
    ({ t with listed, stdin := false, aborted } : Task).Ok (log ++ [m]) true := by
  have hlt := hok.opened_lt
  have hown : t.own (log ++ [m]) = t.own log := Task.own_snoc_of_other hlt fun _ => hk
  have ha : ¬ t.Active (log ++ [m]) := fun h => hk (((Task.active_snoc hlt).mp h).2 hs)
  refine ⟨hok.opened_append _, hok.given.trans (Task.own_grows hlt), fun _ => hl, nofun,
    fun _ _ h => absurd h ha, fun _ hr => ?_, fun _ hd => ⟨ha, ?_⟩, nofun⟩
  · exact (hok.flow rfl hr).trans hown.symm
  · exact (hok.whole rfl hd).2.trans hown.symm

theorem Task.isAt_iff : t.isAt session ↔ t.listed ∧ t.session = session := by
  simp [isAt]

theorem Task.Ok.spawn (ho : log[log.length - 1]? = some m) (hk : m.kind = Kind.opening)
    (hop : isOpen) : (Task.spawn m.session (log.length - 1)).Ok log isOpen := by
  have hs : (Task.spawn m.session (log.length - 1)).since log = [] :=
    drop_of_length_le (by simp [Task.spawn]; omega)
  have hown : (Task.spawn m.session (log.length - 1)).own log = [] := by
    rw [Task.own, hs]
    rfl
  refine ⟨⟨m.payload, ?_⟩, nil_prefix, fun _ _ => rfl, fun _ => ⟨rfl, fun m' hm' => ?_⟩,
    fun _ _ _ => rfl, fun _ _ => hown.symm, nofun, fun h => (by cases hop.symm.trans h)⟩
  · exact ho.trans (by rw [← hk]; rfl)
  · rw [hs] at hm'
    cases hm'

theorem Inv.spawn (hinv : Inv h) (hop : h.isOpen) (ho : h.log[h.log.length - 1]? = some m)
    (hk : m.kind = Kind.opening)
    (hn : ∀ t ∈ h.tasks, ¬ t.isAt m.session) (hr : h.tasks.countP Task.listed < maxSessions) :
    Inv { h with tasks := h.tasks ++ [.spawn m.session (h.log.length - 1)] } := by
  refine ⟨?_, ?_, fun session => ?_, hinv.answers⟩
  · exact forall_mem_append.mpr ⟨hinv.tasks, forall_mem_singleton.mpr (.spawn ho hk hop)⟩
  · rw [countP_append]
    exact hr
  · rw [countP_append]
    by_cases hs : session = m.session
    · rw [hs, countP_eq_zero.mpr hn, Nat.zero_add]
      exact countP_le_length
    · rw [countP_singleton, if_neg fun h => hs (Task.isAt_iff.mp h).2.symm]
      exact hinv.alone session

theorem Inv.handle (hinv : Inv h) (hop : h.isOpen) (hwa : ∀ t ∈ h.tasks, t.waiting = none)
    (m : Message) : Inv (({ h with log := h.log ++ [m] } : Head).handle status m) := by
  have hok : ∀ t ∈ h.tasks, t.Ok h.log true := hop ▸ hinv.tasks
  have hsto := hinv.stop [m] fun t ht => Task.own_grows (hinv.tasks t ht).opened_lt
  -- a session that is not the one in the table under the message's id
  have hot : ∀ t ∈ h.tasks, ¬ t.isAt m.session → t.Ok (h.log ++ [m]) h.isOpen := by
    intro t ht hat
    rw [hop]
    refine (hok t ht).ignore fun hst hse => hat ?_
    exact Task.isAt_iff.mpr ⟨((hok t ht).stdin hst).1, hse.symm⟩
  have hen : ∀ {f : Task → Task}, (∀ t : Task, t.Leads (f t)) →
      (∀ t ∈ h.tasks, t.listed → m.session = t.session → (f t).Ok (h.log ++ [m]) true) →
      Inv (({ h with log := h.log ++ [m] } : Head).update (Task.isAt m.session) f) := by
    intro f hle hf
    refine hinv.update [m] hle fun t ht => ?_
    split_ifs with hat
    · have hat := Task.isAt_iff.mp hat
      exact hop ▸ hf t ht hat.1 hat.2.symm
    · exact hot t ht hat
  unfold Head.handle
  by_cases hki : m.kind = Kind.opening
  · rw [if_pos hki]
    by_cases hat : h.tasks.any (Task.isAt m.session)
    · rw [if_pos hat]
      exact hsto
    have hno : ∀ t ∈ h.tasks, ¬ t.isAt m.session := by simpa using hat
    have hlog : Inv { h with log := h.log ++ [m] } :=
      hinv.map (f := id) (map_id _).symm (subset_append_left _ _) rfl (fun t => ⟨rfl, id⟩)
        fun t ht => hot t ht (hno t ht)
    rw [if_neg hat]
    split_ifs with hfu
    · exact hlog.send ⟨m, mem_append_right _ (mem_singleton.mpr rfl), hki, rfl⟩
    · exact hlog.spawn hop (by simp) hki hno (Nat.lt_of_not_le hfu)
  rw [if_neg hki]
  by_cases hda : m.kind = Kind.data
  · rw [if_pos hda]
    refine hen (fun t => ?_) fun t ht hli hse => ?_
    · unfold Task.hold
      split_ifs <;> exact ⟨rfl, id⟩
    · unfold Task.hold
      split_ifs with hst
      · exact (hok t ht).data (hwa t ht) hst hse hda
      · exact (hok t ht).ignore fun h => absurd h hst
  split_ifs
  · exact hen (fun t => ⟨rfl, id⟩) fun t ht hli hse => (hok t ht).cut hse hda fun _ => hli
  · exact hen (fun t => ⟨rfl, nofun⟩) fun t ht hli hse =>
      (hok t ht).cut hse hda fun hliv => (by simp [Task.isLive] at hliv)
  · exact hsto

theorem Inv.step (hinv : Inv h) (hc : Clear h act) : Inv (h.step status act) := by
  have hs : Inv h.stop := by
    simpa using hinv.stop [] fun t _ => ⟨[], by rw [append_nil, append_nil]⟩
  cases act with
  | message bytes =>
    simp only [Head.step]
    split_ifs with hr
    · cases bytes.bind decode with
      | none => exact hs
      | some m => exact hinv.handle hr.1 (by simpa using hr.2) m
    · exact hinv
  | deliver =>
    simp only [Head.step]
    split_ifs with ho
    · exact hinv.change (fun _ => Task.deliver_leads) fun t ht _ => (hinv.tasks t ht).deliver ho
    · exact hinv
  | join opened =>
    simp only [Head.step]
    split_ifs
    · exact hinv.join hc
    · exact hinv
  | drop => exact hs
  | start opened start | take opened | write opened n | writeFails opened | output opened bytes
  | finish opened ending | close opened | cancel opened =>
    exact hinv.work status opened _

end Steps

theorem run_sound (status : StatusCodec) (acts : List Act)
    (hcl : Along (Head.step status) Clear .initial acts) : (Head.run status acts).Sound := by
  have hin : Inv .initial := by constructor <;> simp [Head.initial]
  exact (Along.invariant (I := Inv) (fun _ _ hinv hc => hinv.step hc) hin hcl).sound

/-! ## An id that is open again -/

def idBytes (n : UInt8) : List UInt8 := [0, 0, 0, n]

def opens (n : UInt8) : Act := .message (some (Kind.opening :: idBytes n))

/-- Session 0 is refused, and its result waits. The machine closes the session and opens the id
again. Collecting the result then drops the second session from the table, and eight more can be
opened. -/
def reopened : List Act :=
  [opens 0, .start 0 .malformed, .close 0, .message (some (Kind.close :: idBytes 0)),
    opens 0, .join 0, opens 1, opens 2, opens 3, opens 4, opens 5, opens 6, opens 7, opens 8]

end Intentd.HeadGitSessions
