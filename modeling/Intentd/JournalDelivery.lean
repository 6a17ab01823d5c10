import Intentd.JournalStreaming

/-!
# Every record reaches head once and in order

The invariant compares four counters: the machine's acknowledged sequence, the
acknowledgement head saved, the sequence it ingested and the machine's last
record. What keeps them in order is said about each link. Nothing on its way to
the machine acknowledges more than head saved. What is on its way to head on a
link of the running head process never runs ahead: each record is at most one
past the ingested sequence or an earlier record of the same link, so head never
meets a gap. A cut link loses an end of its records, which leaves that true.
-/
namespace Intentd.JournalDelivery
open JournalDirectory JournalProcess JournalLedger JournalStreaming MachineWords LabelledRuns List
  Function Option Ledger

section Sequences

/-- Each number is at most one past the bound or an earlier number. -/
def Follows : ℕ → List ℕ → Prop
  | _, [] => True
  | b, n :: ns => n ≤ b + 1 ∧ Follows (max b n) ns

/-- The largest of a bound and some numbers. -/
def reach (b : ℕ) (ns : List ℕ) : ℕ := ns.foldl max b

theorem reach_append (b : ℕ) (ns ms : List ℕ) : reach b (ns ++ ms) = reach (reach b ns) ms :=
  foldl_append

theorem le_reach (b : ℕ) (ns : List ℕ) : b ≤ reach b ns := by
  induction ns generalizing b with
  | nil => exact le_rfl
  | cons n ns ih => exact (le_max_left b n).trans (ih (max b n))

variable {b b' : ℕ} {ns : List ℕ}

theorem reach_mono (h : b ≤ b') (ns : List ℕ) : reach b ns ≤ reach b' ns := by
  induction ns generalizing b b' with
  | nil => exact h
  | cons n ns ih => exact ih (show max b n ≤ max b' n by omega)

theorem Follows.mono (h : Follows b ns) (hb : b ≤ b') : Follows b' ns := by
  induction ns generalizing b b' with
  | nil => trivial
  | cons n ns ih =>
    obtain ⟨hn, hns⟩ := h
    exact ⟨by omega, ih hns (by omega)⟩

theorem follows_append {ms : List ℕ} :
    Follows b (ns ++ ms) ↔ Follows b ns ∧ Follows (reach b ns) ms := by
  induction ns generalizing b with
  | nil => simp [Follows, reach]
  | cons n ns ih =>
    simp only [cons_append, Follows, ih, and_assoc]
    rfl

theorem follows_of_le (h : ∀ n ∈ ns, n ≤ b) : Follows b ns := by
  induction ns with
  | nil => trivial
  | cons n ns ih =>
    have hn := h n (mem_cons_self ..)
    have hns := ih fun m hm => h m (mem_cons_of_mem n hm)
    exact ⟨by omega, hns.mono (le_max_left b n)⟩

theorem follows_range' {m : ℕ} (h : m ≤ b) (k : ℕ) : Follows b (range' (m + 1) k) := by
  induction k generalizing b m with
  | zero => trivial
  | succ k ih =>
    exact ⟨by omega, ih (le_max_right b (m + 1))⟩

end Sequences

variable {β : Type}

/-- The sequence numbers of the journal frames among some frames. -/
def seqs (frames : List (Frame β)) : List ℕ :=
  frames.filterMap fun
    | .journal r => some r.seq
    | .replayComplete _ => none

def streamer (l : Link β) : Option (Streamer β) :=
  match l.session with
  | .serving st => st
  | _ => none

variable {L L' : Ledger β} {p : ℕ} {r : JournalRecord β} {lease : String}

/-- The same lease with more entries. -/
def Grows (L L' : Ledger β) : Prop := L'.lease = L.lease ∧ L.log <+: L'.log

theorem Grows.records (h : Grows L L') : L.records <+: L'.records := by
  obtain ⟨rest, hr⟩ := h.2
  rw [Ledger.records, Ledger.records, ← hr, mapIdx_append]
  exact prefix_append _ _

theorem Grows.take (h : Grows L L') {k : ℕ} (hk : k ≤ L.log.length) :
    L'.records.take k = L.records.take k := by
  obtain ⟨rest, hr⟩ := h.records
  rw [← hr, take_append_of_le_length (by rwa [L.length_records])]

theorem Grows.record (h : Grows L L') {n : ℕ} (hr : L.record n = some r) :
    L'.record n = some r := by
  obtain ⟨rest, hre⟩ := h.records
  have hlt := (List.getElem?_eq_some_iff.mp hr).1
  rw [Ledger.record, ← hre, List.getElem?_append_left hlt]
  exact hr

theorem grows_push (L : Ledger β) (entry : JournalEntry β) : Grows L (L.push entry) := by
  refine ⟨L.push_lease entry, ?_⟩
  by_cases h : L.log.length < u64Max
  · rw [L.push_log h]
    exact prefix_append _ _
  · simp only [L.push_of_full (not_lt.mp h), prefix_rfl]

theorem grows_acknowledge (L : Ledger β) (seq : ℕ) : Grows L (L.acknowledge seq) := by
  unfold acknowledge
  split_ifs <;> exact ⟨rfl, prefix_rfl⟩

theorem acknowledge_acked_le (L : Ledger β) {seq : ℕ} (ha : L.acked ≤ p) (hseq : seq ≤ p) :
    (L.acknowledge seq).acked ≤ p := by
  unfold acknowledge
  split_ifs
  · exact hseq
  · exact ha

theorem adopt_same (h : L.lease = some lease) : L.adopt lease = L :=
  if_pos h

variable {l : Link β} {frame : Frame β}

section Links

/-- What is on a link is the machine's own, and acknowledges no more than head saved. -/
structure LinkOk (L : Ledger β) (persisted : ℕ) (l : Link β) : Prop where
  acked_le : l.acked ≤ persisted
  acks_le : ∀ a ∈ l.toMachine, a ≤ persisted
  frames_mem : ∀ r, .journal r ∈ l.toHead → r ∈ L.records
  batch_mem : ∀ st, streamer l = some st → ∀ r ∈ st.batch, r ∈ L.records

/-- What is on its way to head runs on from what it ingested. After a cut only
the frames that are still in flight count. -/
structure Fed (ingested : ℕ) (l : Link β) : Prop where
  frames : Follows ingested (seqs l.toHead)
  batch : l.cut = false → ∀ st, streamer l = some st →
    Follows (reach ingested (seqs l.toHead)) (st.batch.map (·.seq)) ∧
      st.cursor ≤ reach (reach ingested (seqs l.toHead)) (st.batch.map (·.seq))

variable {i cursor n : ℕ} {st st' : Streamer β} {rest : List (JournalRecord β)}

theorem LinkOk.mono {p' : ℕ} (h : LinkOk L p l) (hg : Grows L L') (hp : p ≤ p') :
    LinkOk L' p' l where
  acked_le := h.acked_le.trans hp
  acks_le a ha := (h.acks_le a ha).trans hp
  frames_mem r hr := hg.records.subset (h.frames_mem r hr)
  batch_mem st hst r hr := hg.records.subset (h.batch_mem st hst r hr)

theorem Fed.mono {i' : ℕ} (h : Fed i l) (hi : i ≤ i') : Fed i' l where
  frames := h.frames.mono hi
  batch hcut st hst := by
    obtain ⟨hf, hc⟩ := h.batch hcut st hst
    have hr := reach_mono hi (seqs l.toHead)
    exact ⟨hf.mono hr, hc.trans (reach_mono hr _)⟩

theorem linkOk_fresh (L : Ledger β) (p : ℕ) : LinkOk L p { acked := p } where
  acked_le := le_rfl
  acks_le := nofun
  frames_mem := nofun
  batch_mem := nofun

theorem fed_fresh (i p : ℕ) : Fed i ({ acked := p } : Link β) where
  frames := trivial
  batch := nofun

theorem LinkOk.sendMachine {seq : ℕ} (h : LinkOk L p l) (hseq : seq ≤ p) :
    LinkOk L p (l.sendMachine seq) := by
  unfold Link.sendMachine
  split_ifs
  · exact h
  · exact { h with acks_le := forall_mem_append.mpr ⟨h.acks_le, forall_mem_singleton.mpr hseq⟩ }

theorem Fed.sendMachine (h : Fed i l) (seq : ℕ) : Fed i (l.sendMachine seq) := by
  unfold Link.sendMachine
  split_ifs
  · exact h
  · exact ⟨h.frames, h.batch⟩

theorem Fed.send (h : Fed i l) (hst : streamer l = some st) (hb : st.batch = r :: rest) :
    Fed i { l.sendHead (.journal r) with
      session := .serving (some { st with cursor := r.seq, batch := rest }) } := by
  unfold Link.sendHead
  by_cases hcut : l.cut
  · rw [if_pos hcut]
    exact ⟨h.frames, fun ho => absurd hcut (by simp_all)⟩
  · rw [if_neg hcut]
    obtain ⟨hf, -⟩ := h.batch (by simpa using hcut) st hst
    rw [hb, map_cons] at hf
    have hs : seqs (l.toHead ++ [Frame.journal r]) = seqs l.toHead ++ [r.seq] := by
      simp [seqs]
    have hr : reach i (seqs l.toHead ++ [r.seq]) = max (reach i (seqs l.toHead)) r.seq := by
      rw [reach_append]
      rfl
    constructor
    · rw [hs, follows_append]
      exact ⟨h.frames, hf.1, trivial⟩
    · intro _ st' hst'
      obtain rfl := some.inj hst'
      rw [hs, hr]
      exact ⟨hf.2, (le_max_right _ _).trans (le_reach _ _)⟩

theorem LinkOk.serve (h : LinkOk L p l) (hb : ∀ x ∈ st.batch, x ∈ L.records) :
    LinkOk L p { l with session := .serving (some st) } := by
  refine { h with batch_mem := ?_ }
  rintro _ ⟨⟩
  exact hb

theorem Fed.serve (h : Fed i l)
    (hb : l.cut = false → Follows (reach i (seqs l.toHead)) (st.batch.map (·.seq)) ∧
      st.cursor ≤ reach (reach i (seqs l.toHead)) (st.batch.map (·.seq))) :
    Fed i { l with session := .serving (some st) } := by
  refine { h with batch := ?_ }
  rintro hcut _ ⟨⟩
  exact hb hcut

theorem LinkOk.sendHead (h : LinkOk L p l) (hf : ∀ r, frame = .journal r → r ∈ L.records)
    (hb : ∀ x ∈ st.batch, x ∈ L.records) :
    LinkOk L p { l.sendHead frame with session := .serving (some st) } := by
  have hs := h.serve hb
  unfold Link.sendHead
  split_ifs
  · exact hs
  · refine { hs with frames_mem := fun x hx => ?_ }
    rcases mem_append.mp hx with hx | hx
    · exact h.frames_mem x hx
    · exact hf x (mem_singleton.mp hx).symm

theorem LinkOk.send (h : LinkOk L p l) (hst : streamer l = some st) (hb : st.batch = r :: rest) :
    LinkOk L p { l.sendHead (.journal r) with
      session := .serving (some { st with cursor := r.seq, batch := rest }) } := by
  have hmem := h.batch_mem st hst
  rw [hb, forall_mem_cons] at hmem
  exact h.sendHead (fun _ hr => Frame.journal.inj hr ▸ hmem.1) hmem.2

theorem follows_reads {b : ℕ} {rs : List (JournalRecord β)} (hre : L.Reads cursor rs)
    (hc : cursor ≤ b) (ha : L.acked ≤ b) : Follows b (rs.map (·.seq)) := by
  by_cases htop : max cursor L.acked < u64Max
  · rw [hre.2 htop]
    have hs : (L.records.drop (max cursor L.acked)).map (·.seq) =
        range' (max cursor L.acked + 1) (L.log.length - max cursor L.acked) := by
      apply ext_getElem
      · simp [records]
      · simp only [records, getElem_map, getElem_drop, getElem_mapIdx, getElem_range']
        omega
    rw [hs]
    exact follows_range' (by omega) _
  · apply follows_of_le
    intro n hn
    obtain ⟨r, hr, rfl⟩ := mem_map.mp hn
    obtain ⟨i, hi, rfl⟩ := mem_mapIdx.mp (hre.1 r hr).2
    have hl := L.length_le
    change i + 1 ≤ b
    omega

theorem Fed.read (h : Fed i l) (hst : streamer l = some st) (hb : st.batch = [])
    (hc : st'.cursor = st.cursor) (hr : L.Reads st.cursor st'.batch) (ha : L.acked ≤ i) :
    Fed i { l with session := .serving (some st') } := by
  refine h.serve fun hcut => ?_
  obtain ⟨-, hle⟩ := h.batch hcut st hst
  rw [hb, map_nil] at hle
  have ha' := ha.trans (le_reach i (seqs l.toHead))
  rw [hc]
  exact ⟨follows_reads hr hle ha', hle.trans (le_reach _ _)⟩

theorem LinkOk.read (h : LinkOk L p l) (hre : L.Reads cursor st.batch) :
    LinkOk L p { l with session := .serving (some st) } :=
  h.serve fun r hr => (hre.1 r hr).2

theorem LinkOk.finishReplay (h : LinkOk L p l) (hb : st.batch = []) :
    LinkOk L p { l.sendHead (.replayComplete n) with session := .serving (some st) } := by
  refine h.sendHead nofun ?_
  rw [hb]
  nofun

theorem Fed.finishReplay (h : Fed i l) (hst : streamer l = some st)
    (hb : st'.batch = st.batch) (hc : st'.cursor = st.cursor) :
    Fed i { l.sendHead (.replayComplete n) with session := .serving (some st') } := by
  unfold Link.sendHead
  by_cases hcut : l.cut
  · rw [if_pos hcut]
    exact ⟨h.frames, fun ho => absurd hcut (by simp_all)⟩
  · rw [if_neg hcut]
    have hs : seqs (l.toHead ++ [Frame.replayComplete n]) = seqs l.toHead := by simp [seqs]
    refine ⟨?_, fun ho st'' hs'' => ?_⟩
    · rw [hs]
      exact h.frames
    · obtain rfl := some.inj hs''
      rw [hs, hb, hc]
      exact h.batch ho st hst

theorem Fed.cut (h : Fed i l) (m n : ℕ) :
    Fed i { l with cut := true, toHead := l.toHead.take m, toMachine := l.toMachine.take n } := by
  refine ⟨?_, nofun⟩
  have hs : seqs l.toHead = seqs (l.toHead.take m) ++ seqs (l.toHead.drop m) := by
    rw [seqs, seqs, seqs, ← filterMap_append, take_append_drop]
  have hf := h.frames
  rw [hs, follows_append] at hf
  exact hf.1

theorem LinkOk.cut (h : LinkOk L p l) (m n : ℕ) : LinkOk L p
      { l with cut := true, toHead := l.toHead.take m, toMachine := l.toMachine.take n } where
  acked_le := h.acked_le
  acks_le a ha := h.acks_le a (mem_of_mem_take ha)
  frames_mem r hr := h.frames_mem r (mem_of_mem_take hr)
  batch_mem := h.batch_mem

end Links

variable {s : System β}

section Invariant

variable {g : ℕ} {f : Link β → Link β} {rest : List (Frame β)}

theorem record_of_mem (h : r ∈ L.records) :
    L.record r.seq = some r ∧ 0 < r.seq ∧ r.seq ≤ L.log.length := by
  obtain ⟨i, hi, rfl⟩ := mem_mapIdx.mp h
  refine ⟨?_, Nat.succ_pos i, hi⟩
  rw [L.record_eq (i + 1) (Nat.succ_pos i), Nat.add_sub_cancel, getElem?_eq_getElem hi]
  rfl

structure Inv (lease : String) (s : System β) : Prop where
  lease : s.journal.lease = some lease
  acked_le : s.journal.acked ≤ s.persisted
  persisted_le : s.persisted ≤ s.head.ingest.ingested
  ingested_le : s.head.ingest.ingested ≤ s.journal.log.length
  acks_le : ∀ q, s.head.acks.persisted = some q → q ≤ s.persisted
  link : ∀ g l, s.links g = some l → LinkOk s.journal s.persisted l
  fed : ∀ g l, s.links g = some l → s.head.firstGeneration ≤ g → Fed s.head.ingest.ingested l
  unused : ∀ g, s.generation < g → s.links g = none
  own : ∀ g, s.head.serving = some g → s.head.firstGeneration ≤ g
  start_le : s.head.start ≤ s.head.ingest.ingested
  delivered : s.head.delivered = (s.journal.records.take s.head.ingest.ingested).drop s.head.start
  history : ∀ n, 0 < n → n ≤ s.head.ingest.ingested → ∃ r ∈ s.history, s.journal.record n = some r
  lossless : s.lossNoted = false

theorem inv_initial (lease : String) : Inv lease (System.initial lease : System β) where
  lease := rfl
  acked_le := le_rfl
  persisted_le := le_rfl
  ingested_le := le_rfl
  acks_le := nofun
  link := nofun
  fed := nofun
  unused := fun _ _ => rfl
  own := nofun
  start_le := le_rfl
  delivered := rfl
  history := fun _ hn hle => absurd hn (not_lt.mpr hle)
  lossless := rfl

section

variable (h : Inv lease s)
include h

theorem Inv.modifyLink (hok : ∀ l, s.links g = some l → LinkOk s.journal s.persisted l →
      LinkOk s.journal s.persisted (f l))
    (hfed : ∀ l, s.links g = some l → Fed s.head.ingest.ingested l →
      Fed s.head.ingest.ingested (f l)) : Inv lease (s.modifyLink g f) := by
  have hc : ∀ g', (s.modifyLink g f).links g' = if g' = g then (s.links g).map f else s.links g' :=
    fun g' => update_apply ..
  refine { h with
    link := fun g' l' hl' => ?_
    fed := fun g' l' hl' hown => ?_
    unused := fun g' hg' => ?_ }
  · rw [hc] at hl'
    split_ifs at hl'
    · obtain ⟨l, hl, rfl⟩ := map_eq_some_iff.mp hl'
      exact hok l hl (h.link g l hl)
    · exact h.link g' l' hl'
  · rw [hc] at hl'
    split_ifs at hl' with hg
    · obtain ⟨l, hl, rfl⟩ := map_eq_some_iff.mp hl'
      exact hfed l hl (h.fed g l hl (hg ▸ hown))
    · exact h.fed g' l' hl' hown
  · have hn := h.unused g' hg'
    rw [hc]
    split_ifs with hg
    · rw [← hg, hn]
      rfl
    · exact hn

theorem Inv.modifyAt (hl : s.links g = some l) (hok : LinkOk s.journal s.persisted (f l))
    (hfed : Fed s.head.ingest.ingested l → Fed s.head.ingest.ingested (f l)) :
    Inv lease (s.modifyLink g f) := by
  refine h.modifyLink (fun l' hl' _ => ?_) fun l' hl' => ?_ <;> obtain rfl :=
    some.inj (hl.symm.trans hl')
  · exact hok
  · exact hfed

theorem Inv.setJournal (hg : Grows s.journal L) (ha : L.acked ≤ s.persisted) :
    Inv lease { s with journal := L } := by
  refine { h with
    lease := hg.1.trans h.lease
    acked_le := ha
    ingested_le := h.ingested_le.trans hg.2.length_le
    link := fun g l hl => (h.link g l hl).mono hg le_rfl
    delivered := ?_
    history := fun n hn hle => ?_ }
  · rw [hg.take h.ingested_le]
    exact h.delivered
  · obtain ⟨r, hr, hrec⟩ := h.history n hn hle
    exact ⟨r, hr, hg.record hrec⟩

theorem Inv.setAcks {acks : Acks} (hle : ∀ q, acks.persisted = some q → q ≤ s.persisted) :
    Inv lease (s.setAcks acks) :=
  { h with acks_le := hle }

theorem Inv.persistAck : Inv lease s.persistAck := by
  have hmax : s.persisted ≤ s.persistAck.persisted := le_max_left _ _
  exact { h with
    acked_le := h.acked_le.trans hmax
    persisted_le := max_le h.persisted_le le_rfl
    acks_le := fun q hq => (h.acks_le q hq).trans hmax
    link := fun g l hl => (h.link g l hl).mono ⟨rfl, prefix_rfl⟩ hmax }

theorem Inv.sendAck (hle : s.head.ingest.ingested ≤ s.persisted) (g : ℕ) :
    Inv lease (s.sendAck g) := by
  exact h.modifyLink (fun _ _ hok => hok.sendMachine hle) fun _ _ hfed => hfed.sendMachine _

theorem Inv.flush (g : ℕ) (writeOk : Bool) : Inv lease (s.flush g writeOk) := by
  unfold System.flush
  split_ifs with hs
  · have ha : Inv lease (s.setAcks { persisted := s.head.acks.persisted }) :=
      h.setAcks h.acks_le
    exact ha.sendAck (h.acks_le _ hs) g
  · have hseq : s.head.ingest.ingested ≤ s.persistAck.persisted := le_max_right _ _
    have ha : Inv lease (s.persistAck.setAcks { persisted := some s.head.ingest.ingested }) := by
      apply h.persistAck.setAcks
      intro q hq
      obtain rfl := some.inj hq
      exact hseq
    exact ha.sendAck hseq g
  · exact h.setAcks h.acks_le

theorem Inv.closeHead (g : ℕ) : Inv lease (s.closeHead g) := by
  exact h.modifyLink (fun _ _ hok => { hok with }) fun _ _ hfed => { hfed with }

theorem Inv.endLink (g : ℕ) (writeOk : Bool) : Inv lease (s.endLink g writeOk) :=
  { (h.flush g writeOk).closeHead g with own := nofun }

theorem Inv.countRecord (ackBatch g : ℕ) (writeOk : Bool) :
    Inv lease (s.countRecord ackBatch g writeOk) := by
  unfold System.countRecord
  split_ifs
  · exact h.flush g writeOk
  · exact h.setAcks h.acks_le

end

theorem accept_of_follows {i : Ingest} (hr : r ∈ L.records) (hle : r.seq ≤ i.ingested + 1) :
    (r.seq ≤ i.ingested ∧ i.accept r.seq = (.skip, i)) ∨
      (r.seq = i.ingested + 1 ∧ i.accept r.seq = (.ingest, { i with ingested := r.seq })) := by
  unfold Ingest.accept JournalOrder.classify
  by_cases hold : r.seq ≤ i.ingested
  · left
    rw [if_pos hold]
    exact ⟨hold, rfl⟩
  · right
    have hn : r.seq = i.ingested + 1 := by omega
    have hmax := (record_of_mem hr).2.2.trans L.length_le
    rw [if_neg hold, if_pos (checkedAdd_eq_some.mpr ⟨hn.symm, hmax⟩)]
    exact ⟨hn, rfl⟩

theorem Fed.pop {i : ℕ} (h : Fed i l) (hfr : l.toHead = .journal r :: rest) :
    r.seq ≤ i + 1 ∧ Fed (max i r.seq) { l with toHead := rest } := by
  have hs : seqs l.toHead = r.seq :: seqs rest := by
    rw [hfr]
    rfl
  have hf := h.frames
  have hb := h.batch
  rw [hs] at hf hb
  exact ⟨hf.1, hf.2, hb⟩

theorem LinkOk.pop (h : LinkOk L p l) (hf : l.toHead = frame :: rest) :
    LinkOk L p { l with toHead := rest } := by
  refine { h with frames_mem := fun r hr => h.frames_mem r ?_ }
  rw [hf]
  exact mem_cons_of_mem frame hr

section

variable (h : Inv lease s)
include h

theorem Inv.deliverNext (hmem : r ∈ s.journal.records) (hne : r.seq = s.head.ingest.ingested + 1) :
    Inv lease ((s.setIngest { s.head.ingest with ingested := r.seq }).deliver r) := by
  obtain ⟨hrec, -, hlen⟩ := record_of_mem hmem
  have hle : s.head.ingest.ingested ≤ r.seq := by omega
  refine { h with
    persisted_le := h.persisted_le.trans hle
    ingested_le := hlen
    fed := fun g l hl hown => (h.fed g l hl hown).mono hle
    start_le := h.start_le.trans hle
    delivered := ?_
    history := fun n hn hn' => ?_ }
  · change s.head.delivered ++ [r] = (s.journal.records.take r.seq).drop s.head.start
    have hget : s.journal.records[s.head.ingest.ingested]? = some r := by
      rwa [record, hne, Nat.add_sub_cancel] at hrec
    have hleng : s.head.start ≤ (s.journal.records.take s.head.ingest.ingested).length := by
      rw [length_take, s.journal.length_records]
      exact le_min h.start_le (h.start_le.trans h.ingested_le)
    rw [hne, take_add_one, hget, toList_some, drop_append_of_le_length hleng, h.delivered]
  · change n ≤ r.seq at hn'
    by_cases hla : n = r.seq
    · exact ⟨r, mem_append_right _ (mem_singleton_self r), hla ▸ hrec⟩
    · obtain ⟨x, hx, hxr⟩ := h.history n hn (by omega)
      exact ⟨x, mem_append_left _ hx, hxr⟩

theorem Inv.ingestRecord (hl : s.links g = some l)
    (hown : s.head.firstGeneration ≤ g) (hf : l.toHead = .journal r :: rest) (ackBatch : ℕ)
    (writeOk : Bool) :
    Inv lease ((s.modifyLink g ({ · with toHead := rest })).ingestRecord ackBatch g r writeOk) := by
  have hmem : r ∈ s.journal.records :=
    (h.link g l hl).frames_mem r (hf ▸ mem_cons_self ..)
  obtain ⟨hn, hpop⟩ := (h.fed g l hl hown).pop hf
  have hok := (h.link g l hl).pop hf
  have hh : (s.modifyLink g ({ · with toHead := rest })).head = s.head := rfl
  rcases accept_of_follows (i := s.head.ingest) hmem hn with ⟨hold, ha⟩ | ⟨hne, ha⟩
  · simp only [System.ingestRecord, hh, ha]
    rw [max_eq_left hold] at hpop
    have hs : Inv lease (s.modifyLink g ({ · with toHead := rest })) :=
      h.modifyAt hl hok fun _ => hpop
    exact countRecord (s := (s.modifyLink g _).setIngest s.head.ingest) { hs with } ..
  · simp only [System.ingestRecord, hh, ha]
    rw [max_eq_right (by omega)] at hpop
    have hin : Inv lease (((s.setIngest { s.head.ingest with ingested := r.seq }).deliver
        r).modifyLink g ({ · with toHead := rest })) :=
          (h.deliverNext hmem hne).modifyAt hl hok fun _ => hpop
    exact hin.countRecord ackBatch g writeOk

/-- A death of the machine's process leaves the journal grown or acknowledged
as far as the interrupted command would have taken it, never cut. -/
theorem Inv.died {c : Command β} (hc : Interrupted lease s c)
    (hn : Next s.journal (c, .died) L) : Grows s.journal L ∧ L.acked ≤ s.persisted := by
  have hs : Grows s.journal s.journal := ⟨rfl, prefix_rfl⟩
  cases hn with
  | diedBefore => exact ⟨hs, h.acked_le⟩
  | diedDropping leaseId hlea k hk =>
    cases hc with
    | adopting => exact absurd h.lease hlea
  | diedAfter =>
    cases hc with
    | idle => exact ⟨hs, h.acked_le⟩
    | appending entry =>
      refine ⟨grows_push _ entry, ?_⟩
      rw [apply, push_acked]
      exact h.acked_le
    | adopting =>
      rw [apply, adopt_same h.lease]
      exact ⟨hs, h.acked_le⟩
    | resyncing hl =>
      have hle := (h.link _ _ hl).acked_le
      exact ⟨grows_acknowledge _ _, acknowledge_acked_le _ h.acked_le hle⟩
    | acknowledging hl hack =>
      have hle := (h.link _ _ hl).acks_le _ (hack ▸ mem_cons_self ..)
      exact ⟨grows_acknowledge _ _, acknowledge_acked_le _ h.acked_le hle⟩

theorem Inv.restartMachine (hgr : Grows s.journal L) (ha : L.acked ≤ s.persisted) :
    Inv lease (s.restartMachine L) := by
  have hj := h.setJournal hgr ha
  have hli : ∀ g l', (s.restartMachine L).links g = some l' →
      ∃ l, s.links g = some l ∧ { l with session := .ended, machineClosed := true } = l' :=
    fun g l' hl' => map_eq_some_iff.mp hl'
  refine { hj with link := ?_, fed := ?_, unused := ?_ }
  · intro g l' hl'
    obtain ⟨l, hl, rfl⟩ := hli g l' hl'
    exact { hj.link g l hl with batch_mem := nofun }
  · intro g l' hl' hown
    obtain ⟨l, hl, rfl⟩ := hli g l' hl'
    exact { hj.fed g l hl hown with batch := nofun }
  · intro g hg
    exact map_eq_none_iff.mpr (h.unused g hg)

theorem Inv.restartHead : Inv lease s.restartHead := by
  have hli : ∀ g l', s.restartHead.links g = some l' →
      ∃ l, s.links g = some l ∧ { l with headClosed := true } = l' :=
    fun g l' hl' => map_eq_some_iff.mp hl'
  have hu : ∀ g, s.generation < g → s.restartHead.links g = none :=
    fun g hg => map_eq_none_iff.mpr (h.unused g hg)
  refine { h with
    persisted_le := le_rfl
    ingested_le := h.persisted_le.trans h.ingested_le
    acks_le := nofun
    link := ?_
    fed := ?_
    unused := hu
    own := nofun
    start_le := le_rfl
    delivered := ?_
    history := fun n hn hle => h.history n hn (hle.trans h.persisted_le) }
  · intro g l' hl'
    obtain ⟨l, hl, rfl⟩ := hli g l' hl'
    exact { h.link g l hl with }
  · intro g l' hl' hown
    rw [hu g hown] at hl'
    cases hl'
  · change [] = (s.journal.records.take s.persisted).drop s.persisted
    rw [drop_eq_nil_of_le (length_take_le _ _)]

theorem Inv.offer (writeOk : Bool) : Inv lease (s.offer writeOk) := by
  have hs : s.persisted ≤ (s.offer writeOk).persisted ∧
      (s.offer writeOk).persisted ≤ s.head.ingest.ingested := by
    cases writeOk with
    | false => exact ⟨le_rfl, h.persisted_le⟩
    | true => exact ⟨le_max_left _ _, max_le h.persisted_le le_rfl⟩
  obtain ⟨hle, hin⟩ := hs
  have hc : ∀ g l, (s.offer writeOk).links g = some l →
      l = { acked := (s.offer writeOk).persisted } ∨ s.links g = some l := by
    intro g l hl
    by_cases hg : g = s.generation + 1
    · subst hg
      exact .inl (some.inj (hl.symm.trans (update_self (s.generation + 1) _ _)))
    · exact .inr ((update_of_ne hg ..).symm.trans hl)
  refine { h with
    acked_le := h.acked_le.trans hle
    persisted_le := hin
    acks_le := fun q hq => (h.acks_le q hq).trans hle
    link := ?_
    fed := ?_
    unused := fun g hg => ?_ }
  · intro g l hl
    rcases hc g l hl with rfl | hl
    · exact linkOk_fresh _ _
    · exact (h.link g l hl).mono ⟨rfl, prefix_rfl⟩ hle
  · intro g l hl hown
    rcases hc g l hl with rfl | hl
    · exact fed_fresh _ _
    · exact h.fed g l hl hown
  · have hg : s.generation + 1 < g := hg
    exact (update_of_ne (by omega) ..).trans (h.unused g (by omega))

theorem Inv.silence (g : ℕ)
    (hf : ∀ l, f l = { l with session := (f l).session, machineClosed := (f l).machineClosed })
    (hn : ∀ l, streamer (f l) = none) : Inv lease (s.modifyLink g f) := by
  have hb : ∀ l st, streamer (f l) = some st → False := by
    intro l st hst
    rw [hn] at hst
    cases hst
  refine h.modifyLink (fun l _ hok => ?_) fun l _ hfed => ?_ <;> rw [hf]
  · exact { hok with batch_mem := fun st hst => (hb l st hst).elim }
  · exact { hfed with batch := fun _ st hst => (hb l st hst).elim }

end

theorem streamer_of_serving {st : Option (Streamer β)} (h : l.session = .serving st) :
    streamer l = st := by
  rw [streamer, h]

theorem Inv.popAck (h : Inv lease s) {a : ℕ} {rest : List ℕ}
    (hl : s.links g = some l) (hack : l.toMachine = a :: rest)
    (hf : f l = { l with toMachine := rest, machineClosed := (f l).machineClosed }) :
    Inv lease (s.modifyLink g f) := by
  have hok := h.link g l hl
  apply h.modifyAt hl
  · rw [hf]
    exact { hok with acks_le := fun b hb => hok.acks_le b (hack ▸ mem_cons_of_mem a hb) }
  · intro hfed
    rw [hf]
    exact { hfed with }

theorem inv_step {s' : System β} {ackBatch : ℕ} {a : Action} (h : Inv lease s)
    (hste : Step lease ackBatch s a s') : Inv lease s' := by
  have had : s.journal.adopt lease = s.journal := adopt_same h.lease
  have hin := h.acked_le.trans h.persisted_le
  cases hste with
  | append entry =>
    have hac := (s.journal.push_acked entry).trans_le h.acked_le
    exact h.setJournal (grows_push _ entry) hac
  | adoptReplaced | readFailed | streamClosed | sessionEnds =>
    exact h.silence _ (fun _ => rfl) fun _ => rfl
  | @adoptRefused g =>
    rw [had]
    have hga : Inv lease { s with gate := some g } := { h with }
    exact hga.silence g (fun _ => rfl) fun _ => rfl
  | @adopt g l hli =>
    rw [had]
    have hok := h.link g l hli
    have hac := acknowledge_acked_le s.journal h.acked_le hok.acked_le
    have hjo := h.setJournal (grows_acknowledge s.journal l.acked) hac
    have hga : Inv lease { s with
      gate := some g, journal := s.journal.acknowledge l.acked } := { hjo with }
    apply hga.modifyAt hli
    · exact (hjo.link g l hli).serve nofun
    · exact fun hfed => hfed.serve fun _ =>
        ⟨trivial, (hok.acked_le.trans h.persisted_le).trans (le_reach _ _)⟩
  | @read g l st rs hli hst hba hla hre =>
    have hst := streamer_of_serving hst
    apply h.modifyAt hli
    · exact (h.link g l hli).read hre
    · exact fun hfed => hfed.read hst hba rfl hre hin
  | @send g l st r rest hli hst hba =>
    have hst := streamer_of_serving hst
    apply h.modifyAt hli
    · exact (h.link g l hli).send hst hba
    · exact fun hfed => hfed.send hst hba
  | @finishReplay g last l st hli hst hba =>
    have hst := streamer_of_serving hst
    apply h.modifyAt hli
    · exact (h.link g l hli).finishReplay hba
    · exact fun hfed => hfed.finishReplay hst rfl rfl
  | @awaitAppend g l st hli hst hba =>
    have hst := streamer_of_serving hst
    apply h.modifyAt hli
    · exact (h.link g l hli).serve ((h.link g l hli).batch_mem st hst)
    · exact fun hfed => hfed.serve fun hcut => hfed.batch hcut st hst
  | ackStale hli hst hack | ackRefused hli hst hack => exact h.popAck hli hack rfl
  | @ack g a l rest st hli hst hack =>
    have hle := (h.link g l hli).acks_le a (hack ▸ mem_cons_self ..)
    have hac := acknowledge_acked_le s.journal h.acked_le hle
    exact (h.setJournal (grows_acknowledge s.journal a) hac).popAck hli hack rfl
  | restartMachine hc hne =>
    obtain ⟨hgr, hac⟩ := h.died hc hne
    exact h.restartMachine hgr hac
  | offer writeOk => exact h.offer writeOk
  | @serve g l _ _ hown =>
    exact { h with
      acks_le := nofun
      own := fun g' hg' => by cases hg'; exact hown }
  | receiveRecord writeOk hse hli hfr =>
    exact h.ingestRecord hli (h.own _ hse) hfr ackBatch writeOk
  | @receiveReplayComplete g throughSeq l rest writeOk hse hli hfr =>
    have hrep : Inv lease (s.setIngest s.head.ingest.replayComplete) := { h with }
    have hpop : Inv lease ((s.setIngest s.head.ingest.replayComplete).modifyLink g
        ({ · with toHead := rest })) := by
      have hseq : seqs l.toHead = seqs rest := by
        rw [hfr]
        rfl
      apply hrep.modifyAt hli
      · exact (h.link g l hli).pop hfr
      · exact fun hfed => ⟨hseq ▸ hfed.frames, hseq ▸ hfed.batch⟩
    exact hpop.flush g writeOk
  | flush writeOk => exact h.flush _ writeOk
  | endLink writeOk => exact h.endLink _ writeOk
  | restartHead => exact h.restartHead
  | cut g m n =>
    exact h.modifyLink (fun _ _ hok => hok.cut m n) fun _ _ hfed => hfed.cut m n
  | machineNotices g =>
    exact h.modifyLink (fun _ _ hok => { hok with }) fun _ _ hfed => { hfed with }
  | headNotices g => exact h.closeHead g

end Invariant

/-- In every run of one lease the four counters stay in order; the running head
process delivered the records after the sequence it started from, each once and
without a break, and never noted a loss; and a record is acknowledged on the
machine, and so deleted, only when a head process delivered it and saved that. -/
theorem delivered_once_in_order {lease : String} {ackBatch : ℕ} {actions : List Action}
    {s : System β} (h : Run (Step lease ackBatch) (System.initial lease) actions s) :
    (s.journal.acked ≤ s.persisted ∧ s.persisted ≤ s.head.ingest.ingested ∧
      s.head.ingest.ingested ≤ s.journal.log.length) ∧ (s.head.delivered.map (·.seq) =
      range' (s.head.start + 1) (s.head.ingest.ingested - s.head.start) ∧
      (∀ r ∈ s.head.delivered, r ∈ s.journal.records) ∧ s.lossNoted = false) ∧
    ∀ n, 0 < n → n ≤ s.journal.acked →
      n ≤ s.persisted ∧ ∃ r ∈ s.history, s.journal.record n = some r := by
  have hinv := h.invariant (inv_initial lease) fun _ _ _ => inv_step
  have hs : s.head.delivered.map (·.seq) =
      range' (s.head.start + 1) (s.head.ingest.ingested - s.head.start) := by
    rw [hinv.delivered]
    apply ext_getElem
    · have hlen := hinv.ingested_le
      simp only [length_map, length_drop, length_take, length_records, length_range']
      omega
    · simp only [records, getElem_map, getElem_drop, getElem_take, getElem_mapIdx, getElem_range']
      omega
  refine ⟨⟨hinv.acked_le, hinv.persisted_le, hinv.ingested_le⟩, ⟨hs, ?_, hinv.lossless⟩, ?_⟩
  · intro r hr
    rw [hinv.delivered] at hr
    exact mem_of_mem_take (mem_of_mem_drop hr)
  · intro n hn ha
    have hp := ha.trans hinv.acked_le
    exact ⟨hp, hinv.history n hn (hp.trans hinv.persisted_le)⟩

/-- One record, appended, streamed, ingested and acknowledged. -/
theorem delivered_once_in_order_one_record : ∃ s : System ℕ,
    Run (Step "lease" 1) (System.initial "lease") [.append, .offer, .adopt 1, .stream 1,
      .stream 1, .serve 1, .receive 1, .acknowledge 1] s ∧
    s.journal.acked = 1 ∧ s.journal.acked ≤ s.persisted ∧ s.head.delivered.map (·.seq) =
      range' (s.head.start + 1) (s.head.ingest.ingested - s.head.start) := by
  have hre : ((fresh (some "lease")).push ⟨"agent", "workspace", none, "now", 7⟩ : Ledger ℕ).Reads 0
        [⟨⟨"agent", "workspace", none, "now", 7⟩, 1⟩] := by
    refine ⟨fun r hr => ?_, fun _ => rfl⟩
    obtain rfl := mem_singleton.mp hr
    exact ⟨Nat.one_pos, mem_singleton_self _⟩
  have hnil : Run (Step "lease" 1) (System.initial "lease" : System ℕ) [] _ := .nil
  have hrun := hnil.snoc (.append ⟨"agent", "workspace", none, "now", 7⟩)
    |>.snoc (.offer true rfl)
    |>.snoc (.adopt (g := 1) rfl rfl ⟨rfl, nofun⟩ (Nat.zero_le _))
    |>.snoc (.read (g := 1) rfl rfl rfl rfl hre)
    |>.snoc (.send (g := 1) rfl rfl rfl rfl)
    |>.snoc (.serve (g := 1) rfl rfl le_rfl)
    |>.snoc (.receiveRecord (g := 1) true rfl rfl rfl)
    |>.snoc (.ack (g := 1) rfl rfl rfl ⟨rfl, fun _ hg => (some.inj hg).ge⟩ le_rfl)
  have h := delivered_once_in_order hrun
  exact ⟨_, hrun, rfl, h.1.1, h.2.1.1⟩

end Intentd.JournalDelivery
