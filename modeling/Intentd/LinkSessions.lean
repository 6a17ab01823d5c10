import Intentd.JournalLedger

/-!
# Link sessions on one machine

Every link head binds gets a session on the machine. A session adopts its lease
under the link gate, then records the backend process it talks to, publishes its
link as the one to reach head by and starts the bind sweep, and then handles the
frames of its link one by one, each under the gate again. Between two of these
steps any other session may take its own.

The gate keeps the newest generation, so whatever an older session tries under
it is dropped. The steps right after the adoption do not take the gate. They,
and the cleanups that sessions leave running in the background, are what an
older session can still do after a newer one adopted.
-/
namespace Intentd.LinkSessions
open JournalLedger LabelledRuns List

structure LeaseBinding where
  leaseId : String
  generation : ℕ
  deriving DecidableEq, Repr

inductive Admission where
  | current
  | replaced
  deriving DecidableEq, Repr

def admission (gate : Option LeaseBinding) (binding : LeaseBinding) (closed : Bool) : Admission :=
  if closed || gate.any fun current => binding.generation < current.generation then .replaced
  else .current

structure LinkHello where
  binding : LeaseBinding
  ackedSeq : ℕ
  headSession : Option String
  leaseAgents : List String

/-- The backend process the machine is bound to, its agents and those that ended. -/
structure HeadSession where
  session : Option String
  leaseAgents : List String
  ended : List String
  deriving DecidableEq

structure Secret where
  agentId : String
  name : String
  value : String
  deriving DecidableEq

inductive Effect where
  | launch (agentId : String)
  | prompt (agentId : String)
  | cancel (agentId : String)
  | stop (agentId : String)
  | scriptStart (processId : String)
  | scriptStop (processId : String)
  deriving DecidableEq

inductive Frame where
  | launch (agentId : String)
  | prompt (agentId : String)
  | cancel (agentId : String)
  | stop (agentId : String) (finalStop : Bool)
  | ack (seq : ℕ)
  | scriptStart (processId : String)
  | scriptStop (processId : String)
  | secretPut (agentId name value : String)
  | secretForget (agentId : String) (name : Option String)
  | secretList (agentId : String)
  | capabilities
  | skills
  | pushWip (agentId : String)

inductive Task where
  | sweep (agentId : String)
  | finalStop (agentId : String)
  deriving DecidableEq

/-- How far a session got: `adopted` and the two phases after it are the steps
right after adoption. -/
inductive Phase where
  | arrived
  | adopted
  | headAdopted
  | linked
  | serving
  | ended
  deriving DecidableEq

structure Session where
  hello : LinkHello
  phase : Phase
  closed : Bool

namespace Session

def generation (s : Session) : ℕ := s.hello.binding.generation

/-- The session adopted and has not yet taken every step that follows. -/
def Settling (s : Session) : Prop :=
  s.phase = .adopted ∨ s.phase = .headAdopted ∨ s.phase = .linked

end Session

structure Machine (β : Type) where
  gate : Option LeaseBinding
  journal : Ledger β
  headSession : HeadSession
  secrets : List Secret
  headLink : Option ℕ
  workspaces : List String
  finalizing : List String
  sessions : ℕ → Option Session
  /-- Background cleanups, with the generation of the session that started each. -/
  tasks : List (ℕ × Task)
  /-- What frames made the machine do, with the generation of their session. -/
  effects : List (ℕ × Effect)
  adopted : List ℕ

open Machine

variable {β : Type}

def Machine.new : Machine β :=
  ⟨none, Ledger.fresh none, ⟨none, [], []⟩, [], none, [], [], fun _ => none, [], [], []⟩

namespace Machine
variable (m : Machine β)

def setSession (i : ℕ) (s : Session) : Machine β :=
  { m with sessions := Function.update m.sessions i (some s) }

/-- A different backend process, or an unknown one, drops every secret. -/
def adoptHead (session : Option String) (leaseAgents : List String) : Machine β :=
  { m with
    secrets := if session = none ∨ m.headSession.session ≠ session then [] else m.secrets
    headSession := { m.headSession with session := session, leaseAgents := leaseAgents } }

/-- An agent ended for good: its secrets go, and none is held for it again. -/
def endSecrets (agentId : String) : Machine β :=
  { m with
    headSession := { m.headSession with
      ended := agentId :: m.headSession.ended
      leaseAgents := m.headSession.leaseAgents.filter (· ≠ agentId) }
    secrets := m.secrets.filter (·.agentId ≠ agentId) }

def onLease (agentId : String) : Prop :=
  agentId ∉ m.headSession.ended ∧ (agentId ∈ m.headSession.leaseAgents ∨ agentId ∈ m.workspaces)

instance (agentId : String) : Decidable (m.onLease agentId) :=
  inferInstanceAs (Decidable (_ ∧ _))

/-- Hold a secret, replacing one of the same name. -/
def putSecret (secret : Secret) : Machine β :=
  { m with secrets := secret :: m.secrets.filter fun held =>
      held.agentId ≠ secret.agentId ∨ held.name ≠ secret.name }

def forgetSecret (agentId : String) (name : Option String) : Machine β :=
  { m with secrets := m.secrets.filter fun held =>
      held.agentId ≠ agentId ∨ name.any (· ≠ held.name) }

def act (generation : ℕ) (effect : Effect) : Machine β :=
  { m with effects := m.effects ++ [(generation, effect)] }

/-- A launch brings an ended agent back; it may be refused after that. -/
def launch (generation : ℕ) (agentId : String) (started : Bool) : Machine β :=
  { m with
    headSession := { m.headSession with ended := m.headSession.ended.filter (· ≠ agentId) }
    workspaces := if started then agentId :: m.workspaces else m.workspaces }.act generation
      (.launch agentId)

/-- A final stop runs in the background, once per agent at a time. -/
def finalStop (generation : ℕ) (agentId : String) : Machine β :=
  if agentId ∈ m.finalizing then m
  else { m with
    finalizing := agentId :: m.finalizing
    tasks := m.tasks ++ [(generation, .finalStop agentId)] }

def runTask (generation : ℕ) : Task → Machine β
  | .sweep agentId => m.endSecrets agentId
  | .finalStop agentId =>
    { m.endSecrets agentId with
      finalizing := m.finalizing.filter (· ≠ agentId) }.act generation (.stop agentId)

/-- Handle one frame of an admitted session. `valid` is the check of a secret's
name and value; `started` says whether a launch is let through. -/
def handle (valid : String → String → Bool) (generation : ℕ) (started : Bool) : Frame → Machine β
  | .launch agentId => m.launch generation agentId started
  | .prompt agentId => m.act generation (.prompt agentId)
  | .cancel agentId => m.act generation (.cancel agentId)
  | .stop agentId false => m.act generation (.stop agentId)
  | .stop agentId true => m.finalStop generation agentId
  | .ack seq => { m with journal := m.journal.acknowledge seq }
  | .scriptStart processId => m.act generation (.scriptStart processId)
  | .scriptStop processId => m.act generation (.scriptStop processId)
  | .secretPut agentId name value =>
    if m.onLease agentId ∧ valid name value then m.putSecret ⟨agentId, name, value⟩ else m
  | .secretForget agentId name => m.forgetSecret agentId name
  | .secretList _ => m
  | .capabilities => m
  | .skills => m
  | .pushWip _ => m

end Machine

/-- Reports and pushes do not take the gate. -/
def Frame.gated : Frame → Bool
  | .capabilities => false
  | .skills => false
  | .pushWip _ => false
  | _ => true

/-- Whether a frame closes its link: an acknowledgement of an unwritten record. -/
def Frame.closes (m : Machine β) : Frame → Bool
  | .ack seq => m.journal.log.length < seq
  | _ => false

/-- Who takes a step: the environment, a session adopting its lease, or anything
else a session does or left running. -/
inductive Actor where
  | environment
  | adopting (generation : ℕ)
  | session (generation : ℕ)

inductive Step (valid : String → String → Bool) (m : Machine β) : Actor → Machine β → Prop
  | arrive (i : ℕ) (hello : LinkHello) (hnew : m.sessions i = none) :
      Step valid m .environment (m.setSession i ⟨hello, .arrived, false⟩)
  | close {i : ℕ} {s : Session} (hs : m.sessions i = some s) :
      Step valid m .environment (m.setSession i { s with closed := true })
  | append (entry : JournalDirectory.JournalEntry β) :
      Step valid m .environment { m with journal := m.journal.push entry }
  | adoptReplaced {i : ℕ} {s : Session} (hs : m.sessions i = some s)
      (hphase : s.phase = .arrived) (hadm : admission m.gate s.hello.binding s.closed = .replaced) :
      Step valid m (.adopting s.generation)
        (m.setSession i { s with phase := .ended, closed := true })
  | adopt {i : ℕ} {s : Session} (hs : m.sessions i = some s) (hphase : s.phase = .arrived)
      (hadm : admission m.gate s.hello.binding s.closed = .current)
      (hacked : s.hello.ackedSeq ≤ (m.journal.adopt s.hello.binding.leaseId).log.length) :
      Step valid m (.adopting s.generation) ({ m with
            gate := some s.hello.binding
            journal := (m.journal.adopt s.hello.binding.leaseId).acknowledge s.hello.ackedSeq
            adopted := s.generation :: m.adopted }.setSession i { s with phase := .adopted })
  /-- The journal refuses: the hello acknowledges unwritten records, or a file
  operation fails before or after the lease is adopted. -/
  | adoptRefused {i : ℕ} {s : Session} {journal : Ledger β} (hs : m.sessions i = some s)
      (hphase : s.phase = .arrived) (hadm : admission m.gate s.hello.binding s.closed = .current)
      (hjournal : journal = m.journal ∨ journal = m.journal.adopt s.hello.binding.leaseId) :
      Step valid m (.adopting s.generation)
        ({ m with gate := some s.hello.binding, journal := journal }.setSession i
          { s with phase := .ended, closed := true })
  | adoptHead {i : ℕ} {s : Session} (hs : m.sessions i = some s) (hphase : s.phase = .adopted) :
      Step valid m (.session s.generation)
        ((m.adoptHead s.hello.headSession s.hello.leaseAgents).setSession i
          { s with phase := .headAdopted })
  | setHeadLink {i : ℕ} {s : Session} (hs : m.sessions i = some s)
      (hphase : s.phase = .headAdopted) :
      Step valid m (.session s.generation)
        ({ m with headLink := some i }.setSession i { s with phase := .linked })
  | startSweep {i : ℕ} {s : Session} (candidates : List String) (hs : m.sessions i = some s)
      (hphase : s.phase = .linked) :
      Step valid m (.session s.generation)
        ({ m with tasks := m.tasks ++ candidates.map fun agentId =>
            (s.generation, Task.sweep agentId) }.setSession i { s with phase := .serving })
  | frameDropped {i : ℕ} {s : Session} {frame : Frame} (hs : m.sessions i = some s)
      (hphase : s.phase = .serving) (hgated : frame.gated)
      (hadm : admission m.gate s.hello.binding s.closed = .replaced) :
      Step valid m (.session s.generation) m
  | frame {i : ℕ} {s : Session} {frame : Frame} (started : Bool) (hs : m.sessions i = some s)
      (hphase : s.phase = .serving)
      (hadm : frame.gated → admission m.gate s.hello.binding s.closed = .current) :
      Step valid m (.session s.generation) ((m.handle valid s.generation started frame).setSession i
          { s with closed := s.closed || frame.closes m })
  | runTask {generation : ℕ} {task : Task} {before after : List (ℕ × Task)}
      (htasks : m.tasks = before ++ (generation, task) :: after) :
      Step valid m (.session generation)
        ({ m with tasks := before ++ after }.runTask generation task)
  | finish {i : ℕ} {s : Session} (hs : m.sessions i = some s) (hphase : s.phase = .serving)
      (hclosed : s.closed) :
      Step valid m (.session s.generation) (m.setSession i { s with phase := .ended })

def Replaced (m : Machine β) (generation : ℕ) : Prop := ∃ g ∈ m.adopted, generation < g

/-- Nothing a replaced session must not touch has changed. -/
structure Unchanged (m m' : Machine β) : Prop where
  gate : m'.gate = m.gate
  lease : m'.journal.lease = m.journal.lease
  acked : m'.journal.acked = m.journal.acked
  secrets : m'.secrets = m.secrets
  headSession : m'.headSession = m.headSession
  headLink : m'.headLink = m.headLink
  effects : m'.effects = m.effects

/-- Every step of a replaced session, from this state on, changes nothing. -/
def Inert (valid : String → String → Bool) (m : Machine β) : Prop :=
  ∀ actor m' generation, Step valid m actor m' →
    (actor = .adopting generation ∨ actor = .session generation) → Replaced m generation →
    Unchanged m m'

/-- When a session adopts, no older session is between its own adoption and its
first frame, and none has a cleanup running. -/
def Calm (m : Machine β) (generation : ℕ) : Prop :=
  (∀ i s, m.sessions i = some s → s.generation < generation → ¬s.Settling) ∧
    ∀ task ∈ m.tasks, generation ≤ task.1

/-- A step in which a session adopts only when it is calm. -/
def CalmStep (valid : String → String → Bool) (m : Machine β) (actor : Actor) (m' : Machine β) :
    Prop :=
  Step valid m actor m' ∧ ∀ generation, actor = .adopting generation → Calm m generation

variable {m m' : Machine β} {binding : LeaseBinding} {closed : Bool} {s : Session}

theorem le_of_admission {gate : Option LeaseBinding} {current : LeaseBinding}
    (h : admission gate binding closed = .current) (hg : gate = some current) :
    current.generation ≤ binding.generation := by
  unfold admission at h
  split_ifs at h with hr
  rw [hg, Option.any_some, Bool.or_eq_true, not_or, decide_eq_true_eq] at hr
  exact not_lt.mp hr.2

/-- The gate holds the newest generation that adopted, and whatever a session
still has to do outside the gate is left to sessions at least that new. -/
structure Inv (m : Machine β) : Prop where
  gate : ∀ g ∈ m.adopted, ∃ current, m.gate = some current ∧ g ≤ current.generation
  settling : ∀ i s, m.sessions i = some s → s.Settling → ∀ g ∈ m.adopted, g ≤ s.generation
  tasks : ∀ task ∈ m.tasks, ∀ g ∈ m.adopted, g ≤ task.1

theorem inv_new : Inv (new : Machine β) := ⟨nofun, nofun, nofun⟩

theorem Inv.le_of_current (h : Inv m) (hadm : admission m.gate binding closed = .current) :
    ∀ g ∈ m.adopted, g ≤ binding.generation := by
  intro g hg
  obtain ⟨current, hga, hle⟩ := h.gate g hg
  exact hle.trans (le_of_admission hadm hga)

theorem sessions_setSession {i i' : ℕ} {s' : Session}
    (h : (m.setSession i s).sessions i' = some s') : s' = s ∨ i' ≠ i ∧ m.sessions i' = some s' := by
  have h : Function.update m.sessions i (some s) i' = some s' := h
  by_cases hi : i' = i
  · rw [hi, Function.update_self] at h
    exact .inl (Option.some.inj h).symm
  · rw [Function.update_of_ne hi] at h
    exact .inr ⟨hi, h⟩

/-- Changing one session keeps the invariant if the new one is not settling or
is as new as every adoption. -/
theorem Inv.setSession (h : Inv m) (i : ℕ)
    (hs : s.Settling → ∀ g ∈ m.adopted, g ≤ s.generation) : Inv (m.setSession i s) := by
  refine ⟨h.gate, fun i' s' hs' => ?_, h.tasks⟩
  rcases sessions_setSession hs' with rfl | ⟨-, hs'⟩
  · exact hs
  · exact h.settling i' s' hs'

/-- Handling a frame or running a cleanup leaves the gate and the sessions alone;
it starts no cleanup but under its own generation. -/
structure Keeps (generation : ℕ) (m m' : Machine β) : Prop where
  gate : m'.gate = m.gate
  sessions : m'.sessions = m.sessions
  adopted : m'.adopted = m.adopted
  tasks : ∀ task ∈ m'.tasks, task ∈ m.tasks ∨ task.1 = generation

theorem keeps_handle (valid : String → String → Bool) (generation : ℕ) (started : Bool)
    (frame : Frame) : Keeps generation m (m.handle valid generation started frame) := by
  have hs : ∀ m' : Machine β, m'.gate = m.gate → m'.sessions = m.sessions →
      m'.adopted = m.adopted → m'.tasks = m.tasks → Keeps generation m m' :=
    fun m' hg hse ha hta =>
      ⟨hg, hse, ha, fun task ht => .inl (hta ▸ ht)⟩
  cases frame with
  | stop agentId finalStop =>
    cases finalStop with
    | false => exact hs _ rfl rfl rfl rfl
    | true =>
      rw [handle, finalStop]
      split_ifs
      · exact hs _ rfl rfl rfl rfl
      · exact ⟨rfl, rfl, rfl,
          forall_mem_append.mpr ⟨fun _ => .inl, forall_mem_singleton.mpr (.inr rfl)⟩⟩
  | secretPut agentId name value =>
    rw [handle]
    split_ifs <;> exact hs _ rfl rfl rfl rfl
  | _ => exact hs _ rfl rfl rfl rfl

theorem keeps_runTask (generation : ℕ) (task : Task) :
    Keeps generation m (m.runTask generation task) := by
  cases task with
  | sweep agentId | finalStop agentId => exact ⟨rfl, rfl, rfl, fun _ => .inl⟩

theorem Inv.keeps (h : Inv m) {generation : ℕ} (hk : Keeps generation m m')
    (hnew : (∃ task ∈ m'.tasks, task ∉ m.tasks) → ∀ g ∈ m.adopted, g ≤ generation) : Inv m' := by
  refine ⟨?_, ?_, fun task ht => ?_⟩
  · rw [hk.adopted, hk.gate]
    exact h.gate
  · rw [hk.sessions, hk.adopted]
    exact h.settling
  · rw [hk.adopted]
    by_cases hold : task ∈ m.tasks
    · exact h.tasks task hold
    · rcases hk.tasks task ht with hmem | hgen
      · exact absurd hmem hold
      · rw [hgen]
        exact hnew ⟨task, ht, hold⟩

theorem handle_of_not_gated {frame : Frame} (h : frame.gated = false)
    (valid : String → String → Bool) (generation : ℕ) (started : Bool) :
    m.handle valid generation started frame = m := by
  cases frame <;> first | rfl | cases h

theorem inv_step {valid : String → String → Bool} {actor : Actor}
    (h : Inv m) (hst : CalmStep valid m actor m') : Inv m' := by
  obtain ⟨hst, hca⟩ := hst
  cases hst with
  | arrive i hello hnew => exact h.setSession i nofun
  | @close i s hs => exact h.setSession i fun hset => h.settling i s hs hset
  | append entry => exact { h with }
  | adoptReplaced | finish => exact h.setSession _ nofun
  | @adopt i s hs hph hadm hac =>
    obtain ⟨hse, hta⟩ := hca _ rfl
    have hne : ∀ g ∈ s.generation :: m.adopted, g ≤ s.generation :=
      forall_mem_cons.mpr ⟨le_rfl, h.le_of_current hadm⟩
    have hgat : Inv { m with
        gate := some s.hello.binding
        journal := (m.journal.adopt s.hello.binding.leaseId).acknowledge s.hello.ackedSeq
        adopted := s.generation :: m.adopted } := by
      refine ⟨fun g hg => ⟨s.hello.binding, rfl, hne g hg⟩, fun i' s' hs' hset => ?_,
        fun task ht => ?_⟩
      · exact forall_mem_cons.mpr ⟨not_lt.mp fun hlt => hse i' s' hs' hlt hset,
          h.settling i' s' hs' hset⟩
      · exact forall_mem_cons.mpr ⟨hta task ht, h.tasks task ht⟩
    exact hgat.setSession i fun _ => hne
  | @adoptRefused i s journal hs hph hadm hjo =>
    have hne := h.le_of_current hadm
    have hgat : Inv { m with gate := some s.hello.binding, journal := journal } :=
      { h with gate := fun g hg => ⟨_, rfl, hne g hg⟩ }
    exact hgat.setSession i nofun
  | @adoptHead i s hs hph =>
    have hhe : Inv (m.adoptHead s.hello.headSession s.hello.leaseAgents) :=
      { h with }
    exact hhe.setSession i fun _ => h.settling i s hs (.inl hph)
  | @setHeadLink i s hs hph =>
    have hli : Inv { m with headLink := some i } := { h with }
    exact hli.setSession i fun _ => h.settling i s hs (.inr (.inl hph))
  | @startSweep i s candidates hs hph =>
    have hne := h.settling i s hs (.inr (.inr hph))
    have hsw : Inv { m with tasks := m.tasks ++ candidates.map fun agentId =>
        (s.generation, Task.sweep agentId) } :=
      { h with tasks := forall_mem_append.mpr ⟨h.tasks, forall_mem_map.mpr fun _ _ => hne⟩ }
    exact hsw.setSession i nofun
  | frameDropped => exact h
  | @frame i s frame started hs hph hadm =>
    have hke := keeps_handle (m := m) valid s.generation started frame
    have hha : Inv (m.handle valid s.generation started frame) := by
      apply h.keeps hke
      intro hnew
      have hga : frame.gated := by
        by_contra hga
        obtain ⟨task, ht, hold⟩ := hnew
        rw [handle_of_not_gated (by simpa using hga)] at ht
        exact hold ht
      exact h.le_of_current (hadm hga)
    apply hha.setSession
    intro hset
    have hset : s.phase = .adopted ∨ s.phase = .headAdopted ∨ s.phase = .linked := hset
    rw [hph] at hset
    simp at hset
  | @runTask generation task before after hta =>
    have hre : Inv { m with tasks := before ++ after } := by
      refine { h with tasks := fun task' ht => h.tasks task' ?_ }
      rw [hta]
      exact mem_append.mpr ((mem_append.mp ht).imp_right (mem_cons_of_mem _))
    apply hre.keeps (keeps_runTask generation task)
    rintro ⟨task', ht, hold⟩
    cases task <;> exact absurd ht hold

theorem Inv.inert (h : Inv m) (valid : String → String → Bool) : Inert valid m := by
  intro actor m' generation hst ha hre
  obtain ⟨g, hg, hlt⟩ := hre
  obtain ⟨current, hgat, hle⟩ := h.gate g hg
  -- A step under the gate by a replaced session is refused.
  have hr : ∀ s : Session, s.generation = generation →
      ¬admission m.gate s.hello.binding s.closed = .current := by
    intro s hs hadm
    have hown : s.hello.binding.generation = generation := hs
    have hle' := le_of_admission hadm hgat
    omega
  have hse : ∀ i s, m.sessions i = some s → s.generation = generation → ¬s.Settling := by
    intro i s hs hgen hset
    have hle' := h.settling i s hs hset g hg
    omega
  cases hst with
  | arrive | close | adoptReplaced | frameDropped | finish =>
    exact ⟨rfl, rfl, rfl, rfl, rfl, rfl, rfl⟩
  | append => rcases ha with ha | ha <;> cases ha
  | @adopt i s hs hp hadm | @adoptRefused i s journal hs hp hadm =>
    rcases ha with ha | ha
    · exact absurd hadm (hr s (Actor.adopting.inj ha))
    · cases ha
  | @adoptHead i s hs hp | @setHeadLink i s hs hp | @startSweep i s candidates hs hp =>
    rcases ha with ha | ha
    · cases ha
    · exact absurd (by simp [Session.Settling, hp]) (hse i s hs (Actor.session.inj ha))
  | @frame i s frame started hs hp hadm =>
    have hga : frame.gated = false := by
      rcases ha with ha | ha
      · cases ha
      · by_contra hga
        have hadm := hadm (by simpa using hga)
        exact hr s (Actor.session.inj ha) hadm
    rw [handle_of_not_gated hga]
    exact ⟨rfl, rfl, rfl, rfl, rfl, rfl, rfl⟩
  | @runTask n task before after ht =>
    rcases ha with ha | ha
    · cases ha
    · have hgen := Actor.session.inj ha
      have hmem : (n, task) ∈ m.tasks := by
        rw [ht]
        exact mem_append_right _ (mem_cons_self ..)
      have hle' : g ≤ n := h.tasks _ hmem g hg
      omega

/-- If no session adopts while an older one is still settling or cleaning up, a
replaced session changes nothing in any state reached. -/
theorem replaced_session_inert {valid : String → String → Bool} {actors : List Actor}
    {m : Machine β} (h : Run (CalmStep valid) new actors m) : Inert valid m :=
  (h.invariant inv_new fun _ _ _ => inv_step).inert valid

def hello (generation : ℕ) (headSession : String) : LinkHello :=
  ⟨⟨"lease", generation⟩, 0, some headSession, []⟩

/-- The first session settles before the second one adopts. -/
theorem replaced_session_inert_second : ∃ m : Machine ℕ, Run (CalmStep fun _ _ => true) new
      [.environment, .adopting 1, .session 1, .session 1, .session 1, .environment,
        .adopting 2] m ∧ Replaced m 1 ∧ Inert (fun _ _ => true) m := by
  have hnil : Run (CalmStep fun _ _ => true) (new : Machine ℕ) [] _ := .nil
  have hf := hnil.snoc ⟨.arrive 0 (hello 1 "old") rfl, nofun⟩
  have hc : ∀ n, Actor.adopting 1 = .adopting n →
      Calm ((new : Machine ℕ).setSession 0 ⟨hello 1 "old", .arrived, false⟩) n := by
    intro n hn
    obtain rfl := Actor.adopting.inj hn
    refine ⟨fun i s hs hlt => ?_, nofun⟩
    rcases sessions_setSession hs with rfl | ⟨-, hs⟩
    · exact absurd hlt (by decide)
    · cases hs
  have hse := hf.snoc ⟨.adopt (i := 0) rfl rfl rfl le_rfl, hc⟩
    |>.snoc ⟨.adoptHead (i := 0) rfl rfl, nofun⟩
    |>.snoc ⟨.setHeadLink (i := 0) rfl rfl, nofun⟩
    |>.snoc ⟨.startSweep (i := 0) [] rfl rfl, nofun⟩
    |>.snoc ⟨.arrive 1 (hello 2 "new") rfl, nofun⟩
  have hrun := hse.snoc ⟨.adopt (i := 1) rfl rfl rfl le_rfl, fun n hn => by
    obtain rfl := Actor.adopting.inj hn
    refine ⟨fun i s hs hlt hset => ?_, nofun⟩
    rcases sessions_setSession hs with rfl | ⟨-, hs⟩
    · exact absurd hlt (by decide)
    · rcases sessions_setSession hs with rfl | ⟨hi, hs⟩
      · rcases hset with hset | hset | hset <;> cases hset
      · simp [setSession, adoptHead, Function.update_of_ne hi, new] at hs⟩
  exact ⟨_, hrun, ⟨2, mem_cons_self .., by decide⟩, replaced_session_inert hrun⟩

/-- The first session adopts but is overtaken before it records its backend
process: it then takes the machine back from the second. -/
theorem overtaken_session_acts : ∃ m : Machine ℕ, Run (Step fun _ _ => true) new
      [.environment, .environment, .adopting 1, .adopting 2, .session 2, .session 2] m ∧
      ¬Inert (fun _ _ => true) m := by
  have hnil : Run (Step fun _ _ => true) (new : Machine ℕ) [] _ := .nil
  have hrun := hnil.snoc (.arrive 0 (hello 1 "old") rfl)
    |>.snoc (.arrive 1 (hello 2 "new") rfl)
    |>.snoc (.adopt (i := 0) rfl rfl rfl le_rfl)
    |>.snoc (.adopt (i := 1) rfl rfl rfl le_rfl)
    |>.snoc (.adoptHead (i := 1) rfl rfl)
    |>.snoc (.setHeadLink (i := 1) rfl rfl)
  refine ⟨_, hrun, fun h => ?_⟩
  have hs := (h _ _ 1 (.adoptHead (i := 0) rfl rfl) (.inr rfl)
    ⟨2, mem_cons_self .., by decide⟩).headSession
  exact absurd hs (by decide)

end Intentd.LinkSessions
