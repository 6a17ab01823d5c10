
/-!
# Programs of calls that may fail, run by a process that may die

A program is a tree of calls on an outside world. Every call answers, or
reports a fault and leaves the world as it was; between any two calls the
process may die and leave the world as the calls so far made it. `Exec` is the
relation between a program, the world it starts in and how it can end.

`Program.wp` is the matching weakest precondition. It has one postcondition for
the program returning and one condition for every world the process may die in,
so a single proof about a program covers its normal runs, its error paths and
its crashes. `Method` adds a receiver that keeps its changes when the method
returns an error, which is how a Rust method on a mutable receiver behaves.
-/
namespace Intentd.InterruptiblePrograms

/-- The calls a program can make: what each one answers and does to the world. -/
structure System where
  World : Type
  Call : Type
  Answer : Call → Type
  Fault : Type
  perform : (c : Call) → World → Answer c × World

/-- A program sees a fault as the answer to its call and decides what to do. -/
inductive Program (S : System) (α : Type) where
  | done (a : α)
  | call (c : S.Call) (next : Except S.Fault (S.Answer c) → Program S α)

inductive Outcome (α : Type) where
  | returned (a : α)
  | died

variable {S : System} {α β : Type}
variable {faults : S.Call → Prop} {crash : S.World → Prop} {w : S.World}

namespace Program

def bind : Program S α → (α → Program S β) → Program S β
  | done a, f => f a
  | call c next, f => call c fun r => (next r).bind f

instance : Monad (Program S) where
  pure := done
  bind := bind

@[simp] theorem pure_eq (a : α) : (pure a : Program S α) = done a := rfl

@[simp] theorem done_bind (a : α) (f : α → Program S β) : done a >>= f = f a := rfl

@[simp] theorem call_bind (c : S.Call) (next : Except S.Fault (S.Answer c) → Program S α)
    (f : α → Program S β) : call c next >>= f = call c fun r => next r >>= f := rfl

/-- The runs of a program. `faults` says which calls may report a fault; the
process may die before any call, and after the last one. -/
inductive Exec (faults : S.Call → Prop) : Program S α → S.World → Outcome α → S.World → Prop
  | done (a : α) (w : S.World) : Exec faults (done a) w (.returned a) w
  | answer {c : S.Call} {next : Except S.Fault (S.Answer c) → Program S α}
      {w w' : S.World} {o : Outcome α} :
      Exec faults (next (.ok (S.perform c w).1)) (S.perform c w).2 o w' →
      Exec faults (call c next) w o w'
  | fault {c : S.Call} {next : Except S.Fault (S.Answer c) → Program S α}
      {w w' : S.World} {o : Outcome α} (e : S.Fault) : faults c →
      Exec faults (next (.error e)) w o w' → Exec faults (call c next) w o w'
  | die (p : Program S α) (w : S.World) : Exec faults p w .died w

/-- `crash` holds wherever the process may die, `post` of whatever is returned. -/
def wp (faults : S.Call → Prop) (crash : S.World → Prop) :
    Program S α → (α → S.World → Prop) → S.World → Prop
  | done a, post, w => crash w ∧ post a w
  | call c next, post, w =>
    crash w ∧ (next (.ok (S.perform c w).1)).wp faults crash post (S.perform c w).2 ∧
      (faults c → ∀ e, (next (.error e)).wp faults crash post w)

variable {p : Program S α} {post : α → S.World → Prop}

theorem wp_crash (h : p.wp faults crash post w) : crash w := by
  cases p with
  | done a | call c next => exact h.1

theorem wp_mono {post' : α → S.World → Prop} (h : p.wp faults crash post w)
    (himp : ∀ a w, crash w → post a w → post' a w) : p.wp faults crash post' w := by
  induction p generalizing w with
  | done a => exact ⟨h.1, himp a w h.1 h.2⟩
  | call c next ih => exact ⟨h.1, ih _ h.2.1, fun hc e => ih _ (h.2.2 hc e)⟩

theorem wp_bind (p : Program S α) (f : α → Program S β) (post : β → S.World → Prop) (w : S.World) :
    (p >>= f).wp faults crash post w ↔
      p.wp faults crash (fun a w => (f a).wp faults crash post w) w := by
  induction p generalizing w with
  | done a => exact ⟨fun h => ⟨wp_crash h, h⟩, fun h => h.2⟩
  | call c next ih => simp only [call_bind, wp, ih]

theorem wp_sound {w' : S.World} {o : Outcome α} (h : p.wp faults crash post w)
    (he : Exec faults p w o w') : crash w' ∧ ∀ a, o = .returned a → post a w' := by
  induction he with
  | done a w => exact ⟨h.1, fun b hb => by cases hb; exact h.2⟩
  | answer _ ih => exact ih h.2.1
  | fault e hc _ ih => exact ih (h.2.2 hc e)
  | die p w => exact ⟨wp_crash h, nofun⟩

/-- The run in which no call fails and the process lives. -/
def run : Program S α → S.World → α × S.World
  | done a, w => (a, w)
  | call c next, w => (next (.ok (S.perform c w).1)).run (S.perform c w).2

theorem run_exec (p : Program S α) (w : S.World) :
    Exec faults p w (.returned (p.run w).1) (p.run w).2 := by
  induction p generalizing w with
  | done a => exact .done a w
  | call c next ih => exact .answer (ih _ _)

end Program

/-- A method of a mutable receiver `σ`: an error keeps the changes made so far. -/
abbrev Method (S : System) (σ ε : Type) := ExceptT ε (StateT σ (Program S))

namespace Method

variable {σ ε : Type}

/-- The program a method call runs on a receiver. -/
def on (m : Method S σ ε α) (s : σ) : Program S (Except ε α × σ) := StateT.run (ExceptT.run m) s

/-- Make one call; `onFault` is the error a fault is turned into. -/
def perform (c : S.Call) (onFault : S.Fault → ε) : Method S σ ε (S.Answer c) :=
  ExceptT.mk fun s => .call c fun
    | .ok a => .done (.ok a, s)
    | .error e => .done (.error (onFault e), s)

def wp (faults : S.Call → Prop) (crash : S.World → Prop) (m : Method S σ ε α)
    (post : Except ε α → σ → S.World → Prop) (s : σ) (w : S.World) : Prop :=
  (m.on s).wp faults crash (fun r => post r.1 r.2) w

variable (f : α → Method S σ ε β)

/-- What follows a method: its error is returned at once, its value is passed on. -/
def andThen (faults : S.Call → Prop) (crash : S.World → Prop)
    (post : Except ε β → σ → S.World → Prop) : Except ε α → σ → S.World → Prop
  | .ok a => (f a).wp faults crash post
  | .error e => fun s w => crash w ∧ post (.error e) s w

variable {post : Except ε α → σ → S.World → Prop} {s : σ} {c : S.Call} {onFault : S.Fault → ε}
  {m : Method S σ ε α}

@[simp] theorem wp_pure (a : α) :
    (pure a : Method S σ ε α).wp faults crash post s w ↔ crash w ∧ post (.ok a) s w := Iff.rfl

@[simp] theorem wp_bind (m : Method S σ ε α) (f : α → Method S σ ε β)
    {post : Except ε β → σ → S.World → Prop} :
    (m >>= f).wp faults crash post s w ↔ m.wp faults crash (andThen f faults crash post) s w := by
  have hon : (m >>= f).on s = m.on s >>= fun r => match r.1 with
      | .ok a => (f a).on r.2
      | .error e => .done (.error e, r.2) := by
    change (m.on s >>= fun r => _) = _
    congr 1
    funext r
    rcases r with ⟨r, t⟩
    cases r <;> rfl
  unfold wp
  rw [hon, Program.wp_bind]
  have hp : ∀ (r : Except ε α × σ) (w : S.World), Program.wp faults crash (match r.1 with
        | .ok a => (f a).on r.2
        | .error e => .done (.error e, r.2)) (fun r => post r.1 r.2) w ↔
      andThen f faults crash post r.1 r.2 w := by
    intro r w
    rcases r with ⟨r, t⟩
    cases r <;> rfl
  exact ⟨fun h => Program.wp_mono h fun r w _ => (hp r w).mp,
    fun h => Program.wp_mono h fun r w _ => (hp r w).mpr⟩

/-- One call: the process may die on either side of it. -/
theorem wp_perform {post : Except ε (S.Answer c) → σ → S.World → Prop} (hb : crash w)
    (ha : crash (S.perform c w).2) (hok : post (.ok (S.perform c w).1) s (S.perform c w).2)
    (hf : faults c → ∀ e, post (.error (onFault e)) s w) :
    (perform c onFault : Method S σ ε (S.Answer c)).wp faults crash post s w :=
  ⟨hb, ⟨ha, hok⟩, fun hc e => ⟨hb, hf hc e⟩⟩

theorem wp_crash (h : m.wp faults crash post s w) : crash w :=
  Program.wp_crash h

theorem wp_mono {post' : Except ε α → σ → S.World → Prop} (h : m.wp faults crash post s w)
    (himp : ∀ r s w, crash w → post r s w → post' r s w) : m.wp faults crash post' s w :=
  Program.wp_mono h fun r w => himp r.1 r.2 w

variable {post : Except ε β → σ → S.World → Prop}

theorem wp_map {g : α → β} (h : m.wp faults crash (fun r => post (r.map g)) s w) :
    (m >>= fun a => pure (g a)).wp faults crash post s w := by
  rw [wp_bind]
  refine wp_mono h fun r s w hw hr => ?_
  cases r with
  | ok a | error e => exact ⟨hw, hr⟩

/-- The rule of sequence: `mid` holds after the first method returns, and an
error of the first method is the error of both. -/
theorem wp_seq {f : α → Method S σ ε β} {mid : Except ε α → σ → S.World → Prop}
    (h : m.wp faults crash mid s w)
    (hok : ∀ a s w, mid (.ok a) s w → (f a).wp faults crash post s w)
    (herr : ∀ e s w, mid (.error e) s w → post (.error e) s w) :
    (m >>= f).wp faults crash post s w := by
  rw [wp_bind]
  refine wp_mono h fun r s w hw hr => ?_
  cases r with
  | ok a => exact hok a s w hr
  | error e => exact ⟨hw, herr e s w hr⟩

/-- The rule of sequence after one call. -/
theorem wp_perform_seq {f : S.Answer c → Method S σ ε β} (hb : crash w)
    (hok : (f (S.perform c w).1).wp faults crash post s (S.perform c w).2)
    (hf : faults c → ∀ e, post (.error (onFault e)) s w) :
    (perform c onFault >>= f : Method S σ ε β).wp faults crash post s w := by
  rw [wp_bind]
  exact wp_perform hb (wp_crash hok) hok fun hc e => ⟨hb, hf hc e⟩

theorem wp_get_seq {f : σ → Method S σ ε β} (hb : crash w) (h : (f s).wp faults crash post s w) :
    (get >>= f : Method S σ ε β).wp faults crash post s w :=
  (wp_bind get f).mpr ⟨hb, h⟩

theorem wp_set_seq {t : σ} {f : PUnit → Method S σ ε β} (h : (f ⟨⟩).wp faults crash post t w) :
    (set t >>= f : Method S σ ε β).wp faults crash post s w :=
  (wp_bind (set t) f).mpr ⟨wp_crash h, h⟩

end Method

end Intentd.InterruptiblePrograms
