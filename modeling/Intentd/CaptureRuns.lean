import Intentd.TrafficCapture
import Mathlib.Data.List.Nodup

/-!
# Captures under any interleaving

A capture is known by what the calls have to do with it: what each holds of its budget, whether it
was dropped there, and whether it sent its frame. The counter of the queue is the total of what is
held: by calls that have taken their bytes and not sent their frame, by frames that wait, and by a
batch whose bytes are not given back yet. The trail of a capture is what it has recorded, then what
its collector has in hand, then what waits: every call that sent its frame is on it once.
-/
namespace Intentd.TrafficCapture
open MachineWords NumberedHistories List Option Record

variable {φ : Type}

/-! ## What a capture sees of the calls -/

structure Seen where
  held : ℕ
  dropped : Bool
  sent : Bool

@[simp] def Seen.nothing : Seen := ⟨0, false, false⟩

@[simp] def Observer.seen (limits : Limits) (epoch : ℕ) : Observer φ → Seen
  | .reserved e o payloads => if e = epoch then ⟨o.cost limits payloads, false, false⟩ else .nothing
  | .failed e cost => if e = epoch then ⟨cost, false, false⟩ else .nothing
  | .sent e => if e = epoch then ⟨0, false, true⟩ else .nothing
  | .dropped e => if e = epoch then ⟨0, true, false⟩ else .nothing
  | _ => .nothing

/-- The capture a call has to do with. -/
def Observer.epoch? : Observer φ → Option ℕ
  | .reserved e _ _ => some e
  | .failed e _ => some e
  | .subtracted e => some e
  | .sent e => some e
  | .dropped e => some e
  | _ => none

open Observer

variable {limits : Limits} {observers : List (Observer φ)} {i : ℕ} {seen : List Seen}

section Seen

variable {epoch : ℕ} {x y : Observer φ} {v : Seen}

theorem seen_of_ne (hne : x.epoch? ≠ some epoch) : x.seen limits epoch = .nothing := by
  cases x <;> first | rfl | exact if_neg fun he => hne (congrArg some he)

theorem seen_sent_iff : (x.seen limits epoch).sent = true ↔ x = .sent epoch := by
  by_cases hne : x.epoch? = some epoch
  · cases x <;> simp_all [epoch?]
  · rw [seen_of_ne hne]
    refine ⟨nofun, fun hx => absurd (hx ▸ rfl) hne⟩

/-- A call goes on in a way that a capture does not see. -/
theorem map_seen_set (hx : observers[i]? = some x)
    (hs : y.seen limits epoch = x.seen limits epoch) :
    (observers.set i y).map (Observer.seen limits epoch) =
      observers.map (Observer.seen limits epoch) := by
  have hget : (observers.map (Observer.seen limits epoch))[i]? = some (y.seen limits epoch) := by
    rw [List.getElem?_map, hx, map_some, hs]
  rw [map_set]
  obtain ⟨hi, hget⟩ := List.getElem?_eq_some_iff.mp hget
  rw [← hget]
  exact set_getElem_self hi

theorem sum_set {α : Type} {xs : List α} {x : α} (f : α → ℕ) (hx : xs[i]? = some x) (y : α) :
    ((xs.set i y).map f).sum + f x = (xs.map f).sum + f y := by
  induction xs generalizing i with
  | nil => cases hx
  | cons first xs ih =>
    cases i with
    | zero =>
      cases hx
      simp only [set_cons_zero, map_cons, sum_cons]
      omega
    | succ i =>
      have hr := ih hx
      simp only [set_cons_succ, map_cons, sum_cons]
      omega

def drops (seen : List Seen) : ℕ := (seen.map fun v => v.dropped.toNat).sum

def total (seen : List Seen) : ℕ := (seen.map Seen.held).sum

theorem total_set (hv : seen[i]? = some v) (v' : Seen) :
    total (seen.set i v') + v.held = total seen + v'.held :=
  sum_set Seen.held hv v'

theorem drops_set (hv : seen[i]? = some v) (v' : Seen) :
    drops (seen.set i v') + v.dropped.toNat = drops seen + v'.dropped.toNat :=
  sum_set (fun v => v.dropped.toNat) hv v'

end Seen

/-! ## A capture -/

def Collector.held : Collector φ → ℕ
  | .gathering batch => batchCost batch
  | .gathered batch _ => batchCost batch
  | _ => 0

def Capture.held (c : Capture φ) : ℕ := batchCost c.waiting + c.collector.held

open Capture

def Collector.calls : Collector φ → List ℕ
  | .gathering batch => batch.map Captured.call
  | .gathered batch _ => batch.map Captured.call
  | .subtracted batch _ => batch.map Captured.call
  | .rendered drafts _ => drafts.map Prod.fst
  | _ => []

/-- The calls whose frames are still on their way. -/
def Capture.calls (c : Capture φ) : List ℕ := c.collector.calls ++ c.waiting.map Captured.call

/-- The calls that sent their frame, in the order the frames come in. -/
def Capture.trail (c : Capture φ) : List ℕ := c.history.map Record.call ++ c.calls

structure Holds (limits : Limits) (running : Prop) (reader : Option Reader) (seen : List Seen)
    (c : Capture φ) : Prop where
  queued : c.queued = total seen + c.held
  bound : c.queued ≤ limits.queueBytes
  counts : running → c.dropped = drops seen
  retains : Retains seq limits.maxRecords c.history c.records c.nextSeq c.evicted
  once : c.trail.Nodup
  sent : ∀ i ∈ c.trail, ∃ v, seen[i]? = some v ∧ v.sent = true
  all : running → ∀ (i : ℕ) v, seen[i]? = some v → v.sent = true → i ∈ c.trail
  pages : ∀ r, reader = some r → r.startedAt = c.startedAt →
    Reads seq c.history c.records c.nextSeq r.after r.shown

variable {F : Frames φ} {c : Capture φ} {isOpen : Bool} {drafts : List (ℕ × Draft)}
  {next : Collector φ} {cost after : ℕ} {shown : List Record}

section Holds

variable {running running' : Prop} {reader : Option Reader} {v v' : Seen} {queued : ℕ}

section

variable (h : Holds limits running reader seen c)
include h

theorem Holds.stop (hs : ¬ running') : Holds limits running' reader seen c :=
  { h with counts := fun hrun => absurd hrun hs, all := fun hrun => absurd hrun hs }

theorem Holds.enter : Holds limits running reader (seen ++ [.nothing]) c := by
  refine { h with
    queued := ?_
    counts := fun hrun => ?_
    sent := fun i hi => ?_
    all := fun hrun i v hv hs => ?_ }
  · rw [total, map_append, sum_append]
    exact h.queued
  · rw [drops, map_append, sum_append]
    exact h.counts hrun
  · obtain ⟨v, hv, hs⟩ := h.sent i hi
    exact ⟨v, by rw [getElem?_append_left (List.getElem?_eq_some_iff.mp hv).1, hv], hs⟩
  · rw [getElem?_append] at hv
    split_ifs at hv
    · exact h.all hrun i v hv hs
    · rw [mem_singleton.mp (mem_of_getElem? hv)] at hs
      cases hs

/-- A call that has not sent its frame goes on, and does not send it now. -/
theorem Holds.set (hv : seen[i]? = some v)
    (hs : v.sent = false) (hs' : v'.sent = false) {senders dropped : ℕ}
    (hq : queued + v.held = c.queued + v'.held) (hb : queued ≤ limits.queueBytes)
    (hd : running → dropped + v.dropped.toNat = c.dropped + v'.dropped.toNat) :
    Holds limits running reader (seen.set i v')
      { c with queued := queued, senders := senders, dropped := dropped } := by
  refine ⟨?_, hb, fun hrun => ?_, h.retains, h.once, fun j hj => ?_,
    fun hrun j w hw hsw => ?_, h.pages⟩
  · have hsum := total_set hv v'
    have hold := h.queued
    show queued = total (seen.set i v') + c.held
    omega
  · have hsum := drops_set hv v'
    have hold := h.counts hrun
    have hnew := hd hrun
    show dropped = drops (seen.set i v')
    omega
  · obtain ⟨w, hw, hsw⟩ := h.sent j hj
    have hij : i ≠ j := fun hij => by
      subst hij
      rw [hv] at hw
      cases hw
      exact Bool.false_ne_true (hs.symm.trans hsw)
    exact ⟨w, by rw [getElem?_set_ne hij, hw], hsw⟩
  · by_cases hij : i = j
    · subst hij
      rw [getElem?_set_self', hv] at hw
      cases hw
      exact absurd (hs'.symm.trans hsw) Bool.false_ne_true
    · rw [getElem?_set_ne hij] at hw
      exact h.all hrun j w hw hsw

end

theorem batchCost_append (a b : List (Captured φ)) :
    batchCost (a ++ b) = batchCost a + batchCost b := by
  rw [batchCost, batchCost, batchCost, map_append, sum_append]

section

variable (h : Holds limits running reader seen c)
include h

theorem Holds.send (hv : seen[i]? = some ⟨cost, false, false⟩)
    {captured : Captured φ} (hco : captured.cost = cost) (hc : captured.call = i) (senders : ℕ) :
    Holds limits running reader (seen.set i ⟨0, false, true⟩)
      { c with senders := senders, waiting := c.waiting ++ [captured] } := by
  have ht : ({ c with senders := senders, waiting := c.waiting ++ [captured] } : Capture φ).trail =
      c.trail ++ [i] := by
    simp [trail, calls, hc]
  have hf : i ∉ c.trail := fun hin => by
    obtain ⟨v, hv', hs⟩ := h.sent i hin
    rw [hv] at hv'
    cases hv'
    cases hs
  refine ⟨?_, h.bound, fun hrun => ?_, h.retains, ?_, fun j hj => ?_,
    fun hrun j w hw hsw => ?_, h.pages⟩
  · have hsum := total_set hv ⟨0, false, true⟩
    have hold := h.queued
    have hone : batchCost [captured] = cost := hco ▸ sum_singleton
    show c.queued = _ + (batchCost (c.waiting ++ [captured]) + c.collector.held)
    rw [batchCost_append, hone]
    rw [held] at hold
    dsimp only at hsum
    omega
  · exact (h.counts hrun).trans (drops_set hv ⟨0, false, true⟩).symm
  · rw [ht, ← concat_eq_append]
    exact h.once.concat hf
  · rw [ht] at hj
    rcases mem_append.mp hj with hj | hj
    · obtain ⟨w, hw, hsw⟩ := h.sent j hj
      exact ⟨w, by rw [getElem?_set_ne fun hij : i = j => hf (hij ▸ hj), hw], hsw⟩
    · rw [mem_singleton.mp hj, getElem?_set_self', hv]
      exact ⟨_, rfl, rfl⟩
  · rw [ht]
    by_cases hij : i = j
    · exact mem_append_right _ (mem_singleton.mpr hij.symm)
    · rw [getElem?_set_ne hij] at hw
      exact mem_append_left _ (h.all hrun j w hw hsw)

theorem Holds.held_le (hv : seen[i]? = some v) : v.held ≤ c.queued := by
  have hsum : _ = total seen + 0 := total_set hv .nothing
  have hold := h.queued
  omega

/-- A collector goes on with what it has in hand. -/
theorem Holds.collector {waiting : List (Captured φ)} {old collector : Collector φ}
    (hold : c.collector = old) (hq : queued + (batchCost c.waiting + old.held) = c.queued +
      (batchCost waiting + collector.held))
    (hle : queued ≤ c.queued)
    (hc : collector.calls ++ waiting.map Captured.call = old.calls ++ c.waiting.map Captured.call) :
    Holds limits running reader seen
      { c with waiting := waiting, queued := queued, collector := collector } := by
  subst hold
  have ht : ({ c with waiting := waiting, queued := queued, collector := collector } :
      Capture φ).trail = c.trail :=
    congrArg (c.history.map Record.call ++ ·) hc
  refine ⟨?_, hle.trans h.bound, h.counts, h.retains, ht ▸ h.once, ht ▸ h.sent, ht ▸ h.all, h.pages⟩
  have hsum := h.queued
  rw [held] at hsum
  show queued = total seen + (batchCost waiting + collector.held)
  omega

theorem Holds.batch_le {batch : List (Captured φ)} (hb : c.collector = .gathered batch isOpen) :
    batchCost batch ≤ c.queued := by
  rw [h.queued, held, hb, Collector.held]
  omega

end

theorem batchCost_cons (captured : Captured φ) (rest : List (Captured φ)) :
    batchCost (captured :: rest) = batchCost [captured] + batchCost rest :=
  batchCost_append [captured] rest

theorem recv_spec (c : Capture φ) : batchCost c.recv.1 + c.recv.2.held = batchCost c.waiting ∧
    c.recv.2.calls ++ c.recv.1.map Captured.call = c.waiting.map Captured.call := by
  rw [recv]
  split
  · rename_i captured rest hw
    rw [hw, batchCost_cons]
    exact ⟨Nat.add_comm _ _, rfl⟩
  · rename_i hw
    rw [hw]
    split_ifs <;> exact ⟨rfl, rfl⟩

theorem gather_spec (c : Capture φ) (batch : List (Captured φ)) (timedOut : Bool) :
    batchCost (c.gather batch timedOut).1 + (c.gather batch timedOut).2.held = batchCost c.waiting +
      batchCost batch ∧
      (c.gather batch timedOut).2.calls ++ (c.gather batch timedOut).1.map Captured.call =
        batch.map Captured.call ++ c.waiting.map Captured.call := by
  rw [gather]
  by_cases hmax : batch.length < batchMax
  · rw [if_pos hmax]
    split
    · rename_i captured rest hw
      rw [hw, batchCost_cons]
      refine ⟨?_, by simp [Collector.calls]⟩
      show batchCost rest + batchCost (batch ++ [captured]) = _
      rw [batchCost_append]
      omega
    · rename_i hw
      rw [hw]
      split_ifs <;> exact ⟨rfl, rfl⟩
  · rw [if_neg hmax]
    exact ⟨rfl, rfl⟩

theorem Holds.collect (h : Holds limits running reader seen c) (payloads timedOut : Bool) :
    Holds limits running reader seen (c.collect F limits payloads timedOut) := by
  rw [Capture.collect]
  split
  · rename_i hc
    exact h.collector hc (by rw [(recv_spec c).1]; rfl) le_rfl (recv_spec c).2
  · rename_i batch hc
    exact h.collector hc (by rw [(gather_spec c batch timedOut).1]; rfl) le_rfl
      (gather_spec c batch timedOut).2
  · rename_i batch isOpen hc
    have hle := h.batch_le hc
    rw [wrappingSub_eq hle (Nat.le_of_lt (Nat.lt_of_le_of_lt h.bound limits.queueBytes_lt))]
    refine h.collector hc ?_ (Nat.sub_le _ _) rfl
    show _ + (_ + batchCost batch) = _ + (_ + 0)
    omega
  · rename_i batch isOpen hc
    refine h.collector hc rfl le_rfl ?_
    show (batch.map _).map Prod.fst ++ _ = _
    rw [List.map_map]
    rfl
  · exact h

theorem push_reads (limits : Limits) (c : Capture φ) (draft : ℕ × Draft)
    (h : Reads seq c.history c.records c.nextSeq after shown) :
    Reads seq (c.push limits draft).history (c.push limits draft).records
      (c.push limits draft).nextSeq after shown := by
  refine h.mono (fun r hr => ?_) (fun r hr => mem_append_left _ hr) (Nat.le_succ _)
  rw [push] at hr
  rw [trim_eq] at hr
  rcases mem_append.mp (mem_of_mem_drop hr) with hold | hnew
  · exact .inl hold
  · right
    rw [mem_singleton.mp hnew]

theorem Holds.ingest (h : Holds limits running reader seen c)
    (hco : c.collector = .rendered drafts isOpen) (hh : next.held = 0) (hca : next.calls = []) :
    Holds limits running reader seen { drafts.foldl (push limits) c with collector := next } := by
  -- what is left of the batch goes from the collector to the records
  have hp (rest : List (ℕ × Draft)) (c : Capture φ)
      (hc : Holds limits running reader seen { c with collector := .rendered rest isOpen }) :
      Holds limits running reader seen
        { rest.foldl (push limits) c with collector := .rendered [] isOpen } := by
    induction rest generalizing c with
    | nil => exact hc
    | cons draft rest ih =>
      refine ih (c.push limits draft) ?_
      have htr :
          ({ c.push limits draft with collector := .rendered rest isOpen } : Capture φ).trail =
          ({ c with collector := .rendered (draft :: rest) isOpen } : Capture φ).trail := by
        simp [trail, calls, Collector.calls, push]
      exact ⟨hc.queued, hc.bound, hc.counts, hc.retains.push rfl, htr ▸ hc.once, htr ▸ hc.sent,
        htr ▸ hc.all, fun r hr ht => push_reads limits c draft (hc.pages r hr ht)⟩
  have hd := hp drafts c (hco ▸ h)
  exact hd.collector rfl (by rw [hh]; rfl) le_rfl (by rw [hca]; rfl)

/-- A batch is given up whose capture is over. -/
theorem Holds.discard (h : Holds limits running reader seen c) (ho : ¬ running)
    (hc : c.collector = .rendered drafts isOpen) (hh : next.held = 0) (hca : next.calls = []) :
    Holds limits running reader seen { c with collector := next } := by
  have hsub : ({ c with collector := next } : Capture φ).trail.Sublist c.trail := by
    rw [trail, trail, calls, calls, hca]
    exact (List.Sublist.refl _).append (sublist_append_right _ _)
  refine ⟨?_, h.bound, fun hrun => absurd hrun ho, h.retains, h.once.sublist hsub,
    fun i hi => h.sent i (hsub.subset hi), fun hrun => absurd hrun ho, h.pages⟩
  have hold := h.queued
  rw [held, hc] at hold
  rw [held, hh]
  exact hold

end Holds

/-! ## Runs -/

structure Inv (limits : Limits) (s : State φ) : Prop where
  each : ∀ c ∈ s.captures, Holds limits (s.session = some c.epoch) s.reader
      (s.observers.map (Observer.seen limits c.epoch)) c
  epochs : s.captures.map Capture.epoch = range' 1 s.captures.length
  session : ∀ e, s.session = some e → ∃ c ∈ s.captures, c.epoch = e
  starts : ∀ c ∈ s.captures, ∀ c' ∈ s.captures, c.startedAt = c'.startedAt → c = c'
  latest : ∀ c ∈ s.captures, ∃ last, s.lastStart = some last ∧ c.startedAt ≤ last
  reader : ∀ r, s.reader = some r → ∃ last, s.lastStart = some last ∧ r.startedAt ≤ last
  known : ∀ o ∈ s.observers, ∀ e, o.epoch? = some e → ∃ c ∈ s.captures, c.epoch = e

variable {s : State φ}

section Steps

variable {epoch : ℕ} {x y : Observer φ} {f : Capture φ → Capture φ}

theorem inv_initial (limits : Limits) : Inv limits (.initial : State φ) :=
  ⟨nofun, rfl, nofun, nofun, nofun, nofun, nofun⟩

/-- What is published and the switches say nothing of the captures. -/
theorem Inv.publish (h : Inv limits s) (active payloads : Bool) (published : List Batch) :
    Inv limits { s with active := active, payloads := payloads, published := published } :=
  { h with }

theorem Inv.eq_of_epoch (h : Inv limits s) {a b : Capture φ} (ha : a ∈ s.captures)
    (hb : b ∈ s.captures) (he : a.epoch = b.epoch) : a = b := by
  have hn : (s.captures.map epoch).Nodup := h.epochs ▸ nodup_range'
  exact inj_on_of_nodup_map hn ha hb he

theorem Inv.epoch_le (h : Inv limits s) (hc : c ∈ s.captures) : c.epoch ≤ s.captures.length := by
  have hmem := mem_map_of_mem (f := epoch) hc
  rw [h.epochs, mem_range'_1] at hmem
  omega

theorem capture_some (hf : s.capture epoch = some c) : c ∈ s.captures ∧ c.epoch = epoch :=
  ⟨mem_of_find?_eq_some hf,
    of_decide_eq_true (find?_some (p := fun c : Capture φ => decide (c.epoch = epoch)) hf)⟩

theorem running_some (hr : s.running = some c) : c ∈ s.captures ∧ s.session = some c.epoch := by
  obtain ⟨e, he, hf⟩ := bind_eq_some_iff.mp hr
  obtain ⟨hc, rfl⟩ := capture_some hf
  exact ⟨hc, he⟩

section

variable (h : Inv limits s)
include h

/-- One capture and the calls that have to do with it change. -/
theorem Inv.change (hot : ∀ e, e ≠ epoch →
      observers.map (Observer.seen limits e) = s.observers.map (Observer.seen limits e))
    (hk : ∀ o ∈ observers, ∀ e, o.epoch? = some e → ∃ c ∈ s.captures, c.epoch = e)
    (hf : ∀ c, (f c).epoch = c.epoch ∧ (f c).startedAt = c.startedAt)
    (hown : ∀ c ∈ s.captures, c.epoch = epoch → Holds limits (s.session = some c.epoch) s.reader
        (observers.map (Observer.seen limits c.epoch)) (f c)) :
    Inv limits ({ s with observers := observers }.change epoch f) := by
  have hg (c : Capture φ) : (if c.epoch = epoch then f c else c).epoch = c.epoch ∧
      (if c.epoch = epoch then f c else c).startedAt = c.startedAt := by
    split_ifs
    · exact hf c
    · exact ⟨rfl, rfl⟩
  have hmap {e : ℕ} (hc : ∃ c ∈ s.captures, c.epoch = e) :
      ∃ c ∈ ({ s with observers := observers }.change epoch f).captures, c.epoch = e := by
    obtain ⟨c, hc, hce⟩ := hc
    exact ⟨_, mem_map_of_mem hc, (hg c).1.trans hce⟩
  refine ⟨forall_mem_map.mpr fun c hc => ?_, ?_, fun e he => hmap (h.session e he), ?_,
    forall_mem_map.mpr fun c hc => ?_, h.reader, fun o ho e he => hmap (hk o ho e he)⟩
  · rw [(hg c).1]
    split_ifs with hep
    · exact hown c hc hep
    · show Holds _ _ _ (observers.map _) c
      rw [hot c.epoch hep]
      exact h.each c hc
  · have hco : (Capture.epoch ∘ fun c : Capture φ => if c.epoch = epoch then f c else c) =
        Capture.epoch :=
      funext fun c => (hg c).1
    rw [State.change, List.map_map, hco, length_map]
    exact h.epochs
  · refine forall_mem_map.mpr fun c hc => forall_mem_map.mpr fun c' hc' hs => ?_
    rw [(hg c).2, (hg c').2] at hs
    rw [h.starts c hc c' hc' hs]
  · rw [(hg c).2]
    exact h.latest c hc

theorem Inv.collecting (hf : ∀ c, (f c).epoch = c.epoch ∧ (f c).startedAt = c.startedAt)
    (hown : ∀ c ∈ s.captures, c.epoch = epoch → Holds limits (s.session = some c.epoch) s.reader
        (s.observers.map (Observer.seen limits c.epoch)) (f c)) : Inv limits (s.change epoch f) :=
  h.change (fun _ _ => rfl) h.known hf hown

theorem known_set (hy : ∀ e, y.epoch? = some e → ∃ c ∈ s.captures, c.epoch = e) :
    ∀ o ∈ s.observers.set i y, ∀ e, o.epoch? = some e → ∃ c ∈ s.captures, c.epoch = e := by
  intro o ho
  rcases mem_or_eq_of_mem_set ho with hold | rfl
  · exact h.known o hold
  · exact hy

theorem Inv.calling (hx : s.observers[i]? = some x) (hxe : ∀ e, x.epoch? = some e → e = epoch)
    (hy : y.epoch? = some epoch) (hc : c ∈ s.captures) (hce : c.epoch = epoch)
    (hown : Holds limits (s.session = some c.epoch) s.reader
      ((s.observers.map (Observer.seen limits c.epoch)).set i (y.seen limits c.epoch)) (f c))
    (hf : ∀ c, (f c).epoch = c.epoch ∧ (f c).startedAt = c.startedAt := by
      exact fun _ => ⟨rfl, rfl⟩) :
    Inv limits ((s.setObserver i y).change epoch f) := by
  refine h.change (fun e he => map_seen_set hx ?_) (known_set h fun e he => ?_) hf
    fun c' hc' hce' => ?_
  · have hye : y.epoch? ≠ some e := fun hye => he (some.inj (hye.symm.trans hy))
    rw [seen_of_ne hye, seen_of_ne fun hx' => he (hxe e hx')]
  · exact ⟨c, hc, hce.trans (some.inj (hy.symm.trans he))⟩
  · cases h.eq_of_epoch hc hc' (hce.trans hce'.symm)
    rw [map_set]
    exact hown

theorem Inv.moved (hx : s.observers[i]? = some x) (hs : ∀ e, y.seen limits e = x.seen limits e)
    (hep : ∀ e, y.epoch? = some e → x.epoch? = some e) : Inv limits (s.setObserver i y) := by
  refine { h with
    each := fun c hc => ?_
    known := known_set h fun e he => h.known x (mem_of_getElem? hx) e (hep e he) }
  show Holds _ _ _ ((s.observers.set i y).map _) c
  rw [map_seen_set hx (hs c.epoch)]
  exact h.each c hc

end

theorem lt_next {last : Option ℤ} {t : ℤ} (h : ∃ l, last = some l ∧ t ≤ l) (now : ℤ) :
    t < nextStart last now := by
  obtain ⟨l, rfl, hle⟩ := h
  rw [nextStart]
  split_ifs <;> omega

/-- A capture begins that no call has to do with, and no client. -/
theorem Inv.begin (h : Inv limits s) (now : ℤ) : Inv limits (s.begin now) := by
  have hn (o : Observer φ) (ho : o ∈ s.observers) : o.seen limits (s.captures.length + 1) =
      .nothing :=
    seen_of_ne fun he => by
      obtain ⟨c, hc, hce⟩ := h.known o ho _ he
      exact absurd (h.epoch_le hc) (by omega)
  have hse : s.observers.map (Observer.seen limits (s.captures.length + 1)) =
      s.observers.map fun _ => Seen.nothing := map_congr_left hn
  have hl {t : ℤ} (ht : ∃ l, s.lastStart = some l ∧ t ≤ l) :
      ∃ l, (s.begin now).lastStart = some l ∧ t ≤ l := ⟨_, rfl, Int.le_of_lt (lt_next ht now)⟩
  refine ⟨fun c hc => ?_, ?_, fun e he => ?_, ?_, fun c hc => ?_,
    fun r hr => hl (h.reader r hr), fun o ho e he => ?_⟩
  · rcases mem_append.mp hc with hc | hc
    · refine (h.each c hc).stop fun hrun => ?_
      have hle := h.epoch_le hc
      have heq : s.captures.length + 1 = c.epoch := some.inj hrun
      omega
    · rw [mem_singleton.mp hc]
      show Holds _ _ _ (s.observers.map (Observer.seen limits (s.captures.length + 1))) _
      rw [hse]
      refine ⟨?_, Nat.zero_le _, fun _ => ?_, Retains.empty _ _, nodup_nil, nofun,
        fun _ i v hv hsen => ?_, fun r hr ht => ?_⟩
      · simp [total, Capture.held, batchCost, Collector.held]
      · simp [drops]
      · rw [getElem?_map] at hv
        obtain ⟨o, -, rfl⟩ := map_eq_some_iff.mp hv
        cases hsen
      · exact absurd ht (Int.ne_of_lt (lt_next (h.reader r hr) now))
  · rw [State.begin, map_append, h.epochs, length_append, length_singleton, range'_concat]
    simp [Nat.add_comm]
  · cases he
    exact ⟨_, mem_append_right _ (mem_singleton.mpr rfl), rfl⟩
  · have hne (c : Capture φ) (hc : c ∈ s.captures) : c.startedAt ≠ nextStart s.lastStart now :=
      Int.ne_of_lt (lt_next (h.latest c hc) now)
    simp only [State.begin, forall_mem_append, forall_mem_singleton]
    exact ⟨fun c hc => ⟨h.starts c hc, fun hs => absurd hs (hne c hc)⟩,
      fun c hc hs => absurd hs.symm (hne c hc), fun _ => trivial⟩
  · exact forall_mem_append.mpr ⟨fun c hc => hl (h.latest c hc),
      forall_mem_singleton.mpr ⟨_, rfl, Int.le_refl _⟩⟩ c hc
  · obtain ⟨c, hc, hce⟩ := h.known o ho e he
    exact ⟨c, mem_append_left _ hc, hce⟩

theorem Inv.start (h : Inv limits s) (payloads : Bool) (now : ℤ) :
    Inv limits (s.start limits payloads now) := by
  have hf : Inv limits { s with payloads := payloads } := h.publish s.active payloads s.published
  refine publish ?_ _ _ _
  split_ifs with hon
  · exact hf
  · exact hf.begin now

theorem Inv.stop (h : Inv limits s) : Inv limits (s.stop limits) := by
  rw [State.stop]
  split
  · exact h.publish false true s.published
  · rename_i epoch hse
    have hr : Inv limits (s.change epoch Capture.release) :=
      h.collecting (fun c => ⟨rfl, rfl⟩) fun c hc _ => { h.each c hc with }
    have hs : Inv limits { s.change epoch Capture.release with session := none } :=
      { hr with
        each := fun c hc => (hr.each c hc).stop nofun
        session := nofun }
    exact hs.publish _ _ _

theorem Inv.observe (h : Inv limits s) (o : Observed φ) :
    Inv limits { s with observers := s.observers ++ [if s.active then .entered o else .off] } := by
  generalize hnew : (if s.active then entered o else .off) = new
  have hep : new.epoch? = none := by
    rw [← hnew]
    split_ifs <;> rfl
  refine { h with each := fun c hc => ?_, known := fun x hx e he => ?_ }
  · have hs : new.seen limits c.epoch = .nothing := seen_of_ne (by rw [hep]; exact nofun)
    rw [map_append, map_singleton, hs]
    exact (h.each c hc).enter
  · rcases mem_append.mp hx with hold | hl
    · exact h.known x hold e he
    · rw [mem_singleton.mp hl, hep] at he
      cases he

/-! ### Observing -/

section Observing

variable {o : Observed φ} {payloads : Bool}

theorem map_seen_get (limits : Limits) (hx : s.observers[i]? = some x) (epoch : ℕ) :
    (s.observers.map (Observer.seen limits epoch))[i]? = some (x.seen limits epoch) := by
  rw [getElem?_map, hx]
  rfl

variable (h : Inv limits s)
include h

theorem Inv.reserve (hx : s.observers[i]? = some (.sized o payloads)) :
    Inv limits (s.reserve limits i o payloads) := by
  rw [State.reserve]
  split
  · exact h.moved hx (fun _ => rfl) nofun
  · rename_i c hr
    obtain ⟨hc, hs⟩ := running_some hr
    have hv := map_seen_get limits hx c.epoch
    have hh := h.each c hc
    dsimp only
    split_ifs with hfu
    · -- the frame is dropped and counted in one section
      refine h.calling hx nofun rfl hc rfl ?_
      exact hh.set hv rfl (by simp) (by simp) hh.bound fun _ => by simp
    · have hlt := limits.queueBytes_lt
      have hf : c.queued + o.cost limits payloads ≤ limits.queueBytes := by
        rw [saturatingAdd] at hfu
        omega
      have hadd := wrappingAdd_eq (Nat.le_of_lt (Nat.lt_of_le_of_lt hf hlt))
      refine h.calling hx nofun rfl hc rfl ?_
      refine hh.set hv rfl (by simp) ?_ ?_ fun _ => by simp
      · rw [hadd]
        simp
      · rw [hadd]
        exact hf

theorem Inv.trySend (hx : s.observers[i]? = some (.reserved epoch o payloads)) (now : ℤ) :
    Inv limits (s.trySend F limits i epoch o payloads now) := by
  rw [State.trySend]
  split_ifs with hf
  · exact h.moved hx (fun _ => rfl) fun e he => he
  · obtain ⟨c, hc, rfl⟩ := h.known _ (mem_of_getElem? hx) epoch rfl
    refine h.calling hx (fun e he => (some.inj he).symm) rfl hc rfl ?_
    have hv := map_seen_get limits hx c.epoch
    rw [Observer.seen, if_pos rfl] at hv
    rw [Observer.seen, if_pos rfl]
    exact (h.each c hc).send hv rfl rfl _

theorem Inv.subtract (hx : s.observers[i]? = some (.failed epoch cost)) :
    Inv limits ((s.setObserver i (.subtracted epoch)).change epoch fun c =>
      { c with queued := wrappingSub c.queued cost }) := by
  obtain ⟨c, hc, rfl⟩ := h.known _ (mem_of_getElem? hx) epoch rfl
  refine h.calling hx (fun e he => (some.inj he).symm) rfl hc rfl ?_
  have hv := map_seen_get limits hx c.epoch
  rw [seen, if_pos rfl] at hv
  have hh := h.each c hc
  have hle := hh.held_le hv
  have hsub := wrappingSub_eq hle (Nat.le_of_lt (Nat.lt_of_le_of_lt hh.bound limits.queueBytes_lt))
  refine hh.set hv rfl rfl ?_ ?_ fun _ => rfl
  · rw [hsub]
    exact Nat.sub_add_cancel hle
  · rw [hsub]
    exact (Nat.sub_le _ _).trans hh.bound

theorem Inv.countDropped (hx : s.observers[i]? = some (.subtracted epoch)) :
    Inv limits ((s.setObserver i (.dropped epoch)).change epoch fun c =>
      { c.release with dropped := c.dropped + if s.session = some epoch then 1 else 0 }) := by
  obtain ⟨c, hc, rfl⟩ := h.known _ (mem_of_getElem? hx) epoch rfl
  refine h.calling hx (fun e he => (some.inj he).symm) rfl hc rfl ?_
  have hv := map_seen_get limits hx c.epoch
  rw [seen, if_pos rfl]
  refine (h.each c hc).set hv rfl rfl rfl (h.each c hc).bound fun hrun => ?_
  rw [if_pos hrun]
  rfl

theorem Inv.observerStep (i : ℕ) (now : ℤ) : Inv limits (s.observerStep F limits i now) := by
  rw [State.observerStep]
  split
  · rename_i o hx
    exact h.moved hx (fun _ => rfl) nofun
  · rename_i o payloads hx
    exact h.reserve hx
  · rename_i epoch o payloads hx
    exact h.trySend hx now
  · rename_i epoch cost hx
    exact h.subtract hx
  · rename_i epoch hx
    exact h.countDropped hx
  · exact h

end Observing

/-! ### Collecting -/

theorem push_same (limits : Limits) (drafts : List (ℕ × Draft)) (c : Capture φ) :
    (drafts.foldl (push limits) c).epoch = c.epoch ∧
      (drafts.foldl (push limits) c).startedAt = c.startedAt := by
  induction drafts generalizing c with
  | nil => exact ⟨rfl, rfl⟩
  | cons draft drafts ih => exact ih (c.push limits draft)

theorem Inv.ingest (h : Inv limits s) (hcap : s.capture epoch = some c)
    (hco : c.collector = .rendered drafts isOpen) (hh : next.held = 0)
    (hca : next.calls = []) : Inv limits (s.ingest limits epoch drafts next) := by
  obtain ⟨hc, hce⟩ := capture_some hcap
  have ht {c' : Capture φ} (hc' : c' ∈ s.captures) (hce' : c'.epoch = epoch) : c' = c :=
    h.eq_of_epoch hc' hc (hce'.trans hce.symm)
  rw [State.ingest]
  split_ifs with hrun
  · have hp : Inv limits (s.change epoch fun c =>
        { drafts.foldl (Capture.push limits) c with collector := next }) := by
      refine h.collecting (push_same limits drafts) fun c' hc' hce' => ?_
      cases ht hc' hce'
      exact (h.each c hc).ingest hco hh hca
    exact hp.publish _ _ _
  · refine h.collecting (fun c => ⟨rfl, rfl⟩) fun c' hc' hce' => ?_
    cases ht hc' hce'
    exact (h.each c hc).discard (hce ▸ hrun) hco hh hca

theorem Inv.collectorStep (h : Inv limits s) (epoch : ℕ) (timedOut : Bool) :
    Inv limits (s.collectorStep F limits epoch timedOut) := by
  rw [State.collectorStep]
  split
  · rename_i drafts isOpen hr
    obtain ⟨c, hca, hco⟩ := map_eq_some_iff.mp hr
    refine h.ingest hca hco ?_ ?_
    · split_ifs <;> rfl
    · split_ifs <;> rfl
  · refine h.collecting (fun c => ?_) fun c hc _ => (h.each c hc).collect _ _
    rw [Capture.collect]
    split <;> exact ⟨rfl, rfl⟩

/-! ### Reading -/

theorem fitting_spec (started : Bool) (bytes : ℕ) (records : List Record) :
    (∃ rest, records = fitting started bytes records ++ rest) ∧
      (started = false → fitting started bytes records = [] → records = []) := by
  induction records generalizing started bytes with
  | nil => exact ⟨⟨[], rfl⟩, fun _ _ => rfl⟩
  | cons record records ih =>
    rw [fitting]
    split_ifs with hf
    · refine ⟨⟨_, rfl⟩, fun hs => ?_⟩
      rw [hs, Bool.false_and] at hf
      cases hf
    · obtain ⟨rest, hr⟩ := (ih true (bytes + (record.size + 1))).1
      refine ⟨⟨rest, ?_⟩, nofun⟩
      rw [cons_append, ← hr]

theorem snapshot_spec (limits : Limits) (hr : s.running = some c) (afterSeq limit : Option ℕ) :
    (∃ rest, (c.records.filter fun record => decide (afterSeq.getD 0 < record.seq)) =
        (s.snapshot limits afterSeq limit).records ++ rest) ∧
      (limit ≠ some 0 → (s.snapshot limits afterSeq limit).records = [] →
        (c.records.filter fun record => decide (afterSeq.getD 0 < record.seq)) = []) := by
  rw [State.snapshot, hr, elim_some]
  generalize (c.records.filter fun record => decide (afterSeq.getD 0 < record.seq)) = matching
  generalize hc : min (limit.getD snapshotDefaultLimit) snapshotMaxLimit = count
  obtain ⟨⟨rest, hre⟩, hnil⟩ := fitting_spec false 2 (matching.take count)
  refine ⟨⟨rest ++ matching.drop count, ?_⟩, fun hl he => ?_⟩
  · rw [← append_assoc, ← hre, take_append_drop]
  · have hpos : count ≠ 0 := by
      cases limit with
      | none => exact hc ▸ (by decide)
      | some n =>
        rw [getD_some] at hc
        have hn : n ≠ 0 := fun hn => hl (congrArg some hn)
        have hmax : 0 < snapshotMaxLimit := by decide
        omega
    exact (take_eq_nil_iff.mp (hnil rfl he)).resolve_left hpos

theorem remoteSnapshot_ok {afterSeq limit : Option ℕ} {page : Batch}
    (h : s.remoteSnapshot limits afterSeq limit = .ok page) :
    page = s.snapshot limits afterSeq limit := by
  rw [State.remoteSnapshot] at h
  simp only [optionalCount, bind, Except.bind] at h
  split_ifs at h
  by_cases hz : limit = some 0
  · have he := (if_pos hz).symm.trans h
    cases he
  · exact (Except.ok.inj ((if_neg hz).symm.trans h)).symm

variable (h : Inv limits s)
include h

/-- A client turns to a page of the running capture. -/
theorem Inv.turn (hru : s.running = some c)
    (hre : Reads seq c.history c.records c.nextSeq after shown) (limit : Option ℕ) :
    let page := (s.snapshot limits (some after) limit).records
    Inv limits { s with reader := some ⟨c.startedAt, lastSeq seq after page, shown ++ page⟩ } := by
  obtain ⟨hc, hs⟩ := running_some hru
  refine { h with
    each := fun c' hc' => { h.each c' hc' with pages := fun r hr ht => ?_ }
    reader := fun r hr => ?_ }
  · cases hr
    cases h.starts c hc c' hc' ht
    obtain ⟨⟨rest, hres⟩, -⟩ := snapshot_spec limits hru (some after) limit
    exact hre.turn (h.each c hc).retains hres
  · cases hr
    exact h.latest c hc

theorem Inv.noReader : Inv limits { s with reader := none } :=
  { h with
    each := fun c hc => { h.each c hc with pages := nofun }
    reader := nofun }

theorem Inv.readFirst (limit : Option ℕ) : Inv limits (s.readFirst limits limit) := by
  rw [State.readFirst]
  split
  · exact h
  · rename_i page hp
    cases remoteSnapshot_ok hp
    rw [show (s.snapshot limits none limit).capture.startedAt =
      s.running.map Capture.startedAt from rfl]
    cases hru : s.running with
    | none => exact h.noReader
    | some c =>
      have hre := (h.each c (running_some hru).1).retains
      have hs : Reads Record.seq c.history c.records c.nextSeq 0 [] := by
        refine Reads.start _ (by rw [hre.next]; exact Nat.succ_pos _) fun r hr => ?_
        have hmem : r.seq ∈ c.records.map Record.seq := mem_map_of_mem hr
        rw [hre.kept_numbers, mem_range'_1] at hmem
        omega
      exact h.turn hru hs limit

theorem Inv.readNext (limit : Option ℕ) : Inv limits (s.readNext limits limit) := by
  rw [State.readNext]
  split
  · exact h
  · rename_i reader hre
    split
    · exact h
    · rename_i page hp
      cases remoteSnapshot_ok hp
      split_ifs with hs
      · obtain ⟨c, hr, hsa⟩ := map_eq_some_iff.mp hs
        have hrea := (h.each c (running_some hr).1).pages reader hre hsa.symm
        rw [← hsa]
        exact h.turn hr hrea limit
      · exact h.noReader

theorem Inv.step (act : Act φ) : Inv limits (s.step F limits act) := by
  cases act with
  | start payloads now => exact h.start payloads now
  | stop => exact h.stop
  | observe o => exact h.observe o
  | observer i now => exact h.observerStep i now
  | collector epoch timedOut => exact h.collectorStep epoch timedOut
  | readFirst limit => exact h.readFirst limit
  | readNext limit => exact h.readNext limit

theorem Inv.run (acts : List (Act φ)) : Inv limits (s.run F limits acts) := by
  induction acts generalizing s with
  | nil => exact h
  | cons act acts ih => exact ih (h.step act)

end Steps

/-! ## What holds of every run -/

/-- The calls whose frame was dropped at the queue of a capture. -/
def Observer.isDropped (epoch : ℕ) : Observer φ → Bool
  | .dropped e => e == epoch
  | _ => false

structure CaptureSound (limits : Limits) (s : State φ) (c : Capture φ) : Prop where
  contiguous : c.history.map seq = range' 1 c.history.length
  retained : c.records = newest limits.maxRecords c.history
  counted : c.evicted + c.records.length = c.history.length
  bounded : c.queued ≤ limits.queueBytes
  /-- What is taken from the counter of its queue is in it. -/
  call_le : ∀ (i : ℕ) cost, s.observers[i]? = some (.failed c.epoch cost) → cost ≤ c.queued
  batch_le : ∀ batch isOpen, c.collector = .gathered batch isOpen → batchCost batch ≤ c.queued
  /-- What is recorded was observed under this capture, and is recorded once. -/
  own : ∀ record ∈ c.history, s.observers[record.call]? = some (.sent c.epoch)
  once : (c.history.map call).Nodup

structure RunningSound (limits : Limits) (s : State φ) (c : Capture φ) : Prop where
  dropped : c.dropped = s.observers.countP (isDropped c.epoch)
  kept : ∀ i : ℕ, s.observers[i]? = some (.sent c.epoch) → i ∈ c.history.map call ∨ i ∈ c.calls
  /-- A client of this capture sees no record twice, gets more while there is more, and when it
  gets nothing it has seen all that is retained. -/
  pages : ∀ reader, s.reader = some reader → reader.startedAt = c.startedAt →
    ∀ limit, limit ≠ some 0 → reader.shown.Pairwise (fun a b => a.seq < b.seq) ∧
    ((s.snapshot limits (some reader.after) limit).records = [] →
      reader.shown.filter (fun record => decide (c.evicted < record.seq)) = c.records) ∧
    ((∃ record ∈ c.records, record ∉ reader.shown) →
      (s.snapshot limits (some reader.after) limit).records ≠ [])

theorem Inv.of_capture (h : Inv limits s) (hc : c ∈ s.captures) : CaptureSound limits s c := by
  have hh := h.each c hc
  refine ⟨hh.retains.numbered, hh.retains.newest, hh.retains.counted, hh.bound, fun i cost hi => ?_,
    fun batch isOpen => hh.batch_le, fun record hr => ?_, (nodup_append.mp hh.once).1⟩
  · have hv := map_seen_get limits hi c.epoch
    rw [seen, if_pos rfl] at hv
    exact hh.held_le hv
  · obtain ⟨v, hv, hs⟩ := hh.sent record.call (mem_append_left _ (mem_map_of_mem hr))
    rw [getElem?_map] at hv
    obtain ⟨o, ho, rfl⟩ := map_eq_some_iff.mp hv
    rw [ho, seen_sent_iff.mp hs]

theorem drops_eq (limits : Limits) (epoch : ℕ) (observers : List (Observer φ)) :
    drops (observers.map (Observer.seen limits epoch)) =
      observers.countP (Observer.isDropped epoch) := by
  induction observers with
  | nil => rfl
  | cons o observers ih =>
    have hone : (o.seen limits epoch).dropped = o.isDropped epoch := by
      by_cases hne : o.epoch? = some epoch
      · cases o <;> simp_all [Observer.epoch?, Observer.isDropped]
      · rw [seen_of_ne hne]
        cases o <;> simp_all [Observer.epoch?, Observer.isDropped]
    rw [drops] at ih ⊢
    rw [map_cons, map_cons, sum_cons, ih, countP_cons, hone]
    cases o.isDropped epoch <;> simp [Nat.add_comm]

theorem Inv.running_sound (h : Inv limits s) (hru : s.running = some c) :
    RunningSound limits s c := by
  obtain ⟨hc, hs⟩ := running_some hru
  have hh := h.each c hc
  refine ⟨(hh.counts hs).trans (drops_eq limits c.epoch s.observers), fun i hi => ?_,
    fun reader hrea hst limit hl => ?_⟩
  · exact mem_append.mp (hh.all hs i _ (map_seen_get limits hi c.epoch) (seen_sent_iff.mpr rfl))
  · have hr := hh.pages reader hrea hst
    obtain ⟨-, hnil⟩ := snapshot_spec limits hru (some reader.after) limit
    refine ⟨hr.sorted, fun he => hr.complete hh.retains (hnil hl he), ?_⟩
    rintro ⟨record, hre, hnot⟩ he
    rw [← hr.complete hh.retains (hnil hl he)] at hre
    exact hnot (mem_filter.mp hre).1

/-- However starting, stopping, observing, collecting and reading interleave, every capture is
contiguous and bounded. -/
theorem capture_sound (F : Frames φ) (limits : Limits) (acts : List (Act φ)) :
    (∀ c ∈ (State.run F limits .initial acts).captures,
      CaptureSound limits (State.run F limits .initial acts) c) ∧
      ∀ c, (State.run F limits .initial acts).running = some c →
        RunningSound limits (State.run F limits .initial acts) c := by
  have h : Inv limits (State.run F limits .initial acts) := (inv_initial limits).run acts
  exact ⟨fun c hc => h.of_capture hc, fun c hr => h.running_sound hr⟩

def plainFrames : Frames String where
  maskedCopy := id
  lightFrame := .str
  render captured _ _ := ⟨[("bytes", .num captured.bytes.repr)], false, captured.bytes⟩

/-- One frame is observed, waits and is collected, and a client reads it. -/
def oneFrame : List (Act String) :=
  [.start true 5, .observe ⟨⟨.machine, "m", none⟩, .inward, "hello", 5⟩,
    .observer 0 6, .observer 0 6,
    .observer 0 6, .collector 1 true, .collector 1 true, .collector 1 true, .collector 1 true,
    .collector 1 true, .readFirst none]

theorem capture_sound_default :
    (State.run plainFrames default .initial oneFrame).running.map (fun c =>
      (c.history.map seq, c.queued)) = some ([1], 0) ∧
    ∀ c, (State.run plainFrames default .initial oneFrame).running = some c →
      RunningSound default (State.run plainFrames default .initial oneFrame) c :=
  ⟨by decide +kernel, (capture_sound plainFrames default oneFrame).2⟩

end Intentd.TrafficCapture
