import Mathlib.Order.Interval.Set.Basic
import Intentd.JournalOperations

/-!
# What each journal operation can do to the installed files

One rule per operation. It lists the installed files the operation can leave
behind: where the process may die, where a fault may stop it and where it
returns. Crash consistency and the behaviour under faults are both read off
these rules; no later proof looks inside an operation again.

Pending files do not occur here. Nothing reads them, and every rule is stated
about the installed files only.
-/
namespace Intentd.JournalRules
open InterruptiblePrograms JournalDirectory JournalOperations MachineWords List Function Option

abbrev Files (β : Type) := Target → Option (Content β)

variable {β σ : Type} {f : Files β} {p : Set ℕ} {n : ℕ}
  {post : Except Error Unit → σ → Files β → Prop}

def files (d : Directory β) : Files β := fun t => d.lookup (.installed t)

open Classical in
noncomputable def without (f : Files β) (p : Set ℕ) : Files β
  | .record n => if n ∈ p then none else f (.record n)
  | .state => f .state

@[simp] theorem without_state (f : Files β) (p : Set ℕ) : without f p .state = f .state := rfl

theorem without_record_mem (h : n ∈ p) : without f p (.record n) = none := by
  simp [without, h]

theorem without_record_notMem (h : n ∉ p) : without f p (.record n) = f (.record n) := by
  simp [without, h]

variable {c : Content β}

theorem without_record_eq_some :
    without f p (.record n) = some c ↔ n ∉ p ∧ f (.record n) = some c := by
  by_cases h : n ∈ p <;> simp [without, h]

theorem without_record_isSome :
    (without f p (.record n)).isSome ↔ n ∉ p ∧ (f (.record n)).isSome := by
  by_cases h : n ∈ p <;> simp [without, h]

theorem without_record_none (h : f (.record n) = none) (p : Set ℕ) :
    without f p (.record n) = none := by
  simp [without, h]

@[simp] theorem without_empty (f : Files β) : without f ∅ = f := by
  funext t
  cases t <;> simp [without]

theorem without_update_none (f : Files β) (p : Set ℕ) (n : ℕ) :
    Function.update (without f p) (.record n) none = without f (insert n p) := by
  funext t
  cases t with
  | state => simp [without]
  | record m =>
    by_cases h : m = n
    · subst h
      simp [without]
    · rw [update_of_ne (by simpa using h)]
      by_cases hm : m ∈ p
      · rw [without_record_mem hm, without_record_mem (Set.mem_insert_of_mem n hm)]
      · rw [without_record_notMem hm, without_record_notMem (by simp [h, hm])]

section Directories
variable (d : Directory β)
variable (t : Target)

@[simp] theorem files_insert_pending (c : Content β) :
    files (d.insert (.pending t) c) = files d := by
  funext u
  exact AList.lookup_insert_ne (by simp)

@[simp] theorem files_erase_pending : files (d.erase (.pending t)) = files d := by
  funext u
  exact AList.lookup_erase_ne (by simp)

@[simp] theorem files_insert_installed (c : Content β) :
    files (d.insert (.installed t) c) = Function.update (files d) t (some c) := by
  funext u
  by_cases h : u = t
  · subst h
    simp [files]
  · rw [update_of_ne h]
    exact AList.lookup_insert_ne (by simpa using h)

@[simp] theorem files_erase_installed :
    files (d.erase (.installed t)) = Function.update (files d) t none := by
  funext u
  by_cases h : u = t
  · subst h
    simp [files]
  · rw [update_of_ne h]
    exact AList.lookup_erase_ne (by simpa using h)

theorem files_isSome : (files d t).isSome ↔ Name.installed t ∈ d.keys :=
  AList.lookup_isSome

end Directories

variable {faults : Call β → Prop} {crash : Files β → Prop} {s : σ} {d : Directory β}

/-- The filesystem under a condition on the installed files. -/
abbrev WP {α : Type} (faults : Call β → Prop) (crash : Files β → Prop)
    (m : Method (fileSystem β) σ Error α) (post : Except Error α → σ → Files β → Prop) (s : σ)
    (d : Directory β) : Prop :=
  Method.wp (S := fileSystem β) faults (fun d => crash (files d)) m (fun r s d =>
    post r s (files d)) s d

/-- An operation that returns leaves the counters at `t` and the files as `Q` says. -/
def Leaves {α γ : Type} (post : Except Error γ → σ → Files β → Prop) (t : σ)
    (Q : α → Files β → Prop) : Except Error α → σ → Files β → Prop
  | .ok a, u, f => u = t ∧ Q a f
  | .error e, u, f => post (.error e) u f

/-- Every failed call may be the error, with these counters and files. -/
def Fails {α : Type} (faults : Call β → Prop) (post : Except Error α → σ → Files β → Prop) (s : σ)
    (f : Files β) : Prop :=
  ∀ call, faults call → ∀ context e, post (.error (.io context e)) s f

theorem wp_then {α γ : Type} {post : Except Error γ → σ → Files β → Prop} {t : σ}
    {Q : α → Files β → Prop}
    {m : Method (fileSystem β) σ Error α} {k : α → Method (fileSystem β) σ Error γ}
    (hm : WP faults crash m (Leaves post t Q) s d)
    (hk : ∀ a w, Q a (files w) → WP faults crash (k a) post t w) :
    WP faults crash (m >>= k) post s d := by
  refine Method.wp_seq hm ?_ fun e t w hp => hp
  rintro a t w ⟨rfl, hq⟩
  exact hk a w hq

/-- A file is installed at one instant: its rename. A fault before it changes no
installed file; only the directory sync can fail with the file in place. -/
theorem wp_install {t : Target} (hb : crash (files d))
    (ha : crash (Function.update (files d) t (some c)))
    (hok : post (.ok ()) s (Function.update (files d) t (some c)))
    (hs : faults (.syncDir (some t)) → ∀ e, post (.error (.io "sync directory" e)) s
      (Function.update (files d) t (some c)))
    (hf : Fails faults post s (files d)) : WP faults crash (install t c) post s d := by
  have hr : files (perform (.rename t) ((d.insert (.pending t) .torn).insert (.pending t) c)).2 =
      Function.update (files d) t (some c) := by
    rw [rename_written]
    simp [installed]
  refine Method.wp_perform_seq hb ?_ fun hc => hf _ hc _
  refine Method.wp_perform_seq ?_ ?_ fun hc e => ?_
  · simpa [perform] using hb
  · refine Method.wp_perform_seq ?_ ?_ fun hc e => ?_
    · simpa [perform] using hb
    · refine Method.wp_perform_seq ?_ ?_ fun hc e => ?_
      · simpa [perform] using hb
      · exact Method.wp_perform (hr ▸ ha) (hr ▸ ha) (hr ▸ hok) fun hc e => hr ▸ hs hc e
      · simpa [perform] using hf _ hc "rename" e
    · simpa [perform] using hf _ hc "sync" e
  · simpa [perform] using hf _ hc "write" e

theorem wp_remove (hb : crash (files d)) (ha : crash (Function.update (files d) (.record n) none))
    (hok : post (.ok ()) s (Function.update (files d) (.record n) none))
    (hfa : faults (.remove (.installed (.record n))) →
      ∀ e, post (.error (.io "delete record" e)) s (files d)) :
    WP faults crash (remove n) post s d := by
  refine Method.wp_perform_seq hb ?_ hfa
  rw [Method.wp_pure]
  have hf : files (perform (.remove (.installed (.record n))) d).2 =
      Function.update (files d) (.record n) none := files_erase_installed d _
  exact ⟨hf ▸ ha, hf ▸ hok⟩

theorem wp_syncDir (hc : crash (files d)) (hok : post (.ok ()) s (files d))
    (hf : faults (.syncDir none) → ∀ e, post (.error (.io "sync directory" e)) s (files d)) :
    WP faults crash syncDir post s d :=
  Method.wp_perform hc hc hok hf

/-- The deletions of an acknowledgement: `I k` holds of the files while the records up to `k` are
gone. -/
theorem wp_removeAll {k last : ℕ} (I : ℕ → Files β → Prop) (hcr : ∀ k f, I k f → crash f)
    (hs : ∀ k f, k < last → I k f → I (k + 1) (Function.update f (.record (k + 1)) none))
    (hok : ∀ f, I last f → post (.ok ()) s f)
    (hf : ∀ k f, k < last → I k f → faults (.remove (.installed (.record (k + 1)))) →
      ∀ e, post (.error (.io "delete record" e)) s f) (hk : k ≤ last) (h : I k (files d)) :
    WP faults crash (removeAll (inclusive (k + 1) last)) post s d := by
  induction hk using Nat.decreasingInduction generalizing d with
  | self =>
    rw [inclusive_eq_nil (Nat.lt_succ_self last)]
    exact ⟨hcr _ _ h, hok _ h⟩
  | of_succ k hk ih =>
    rw [inclusive_cons hk]
    have hI := hs k _ hk h
    refine wp_then (Q := fun _ => I (k + 1)) ?_ fun _ _ => ih
    exact wp_remove (hcr _ _ h) (hcr _ _ hI) ⟨rfl, hI⟩ (hf k _ hk h)

/-- The deletions of a lease change: `I k` holds of the files while the records
after `k` are gone, and the counter then stands at `k`. -/
theorem wp_removeNewestFirst {post : Except Error Unit → Journal → Files β → Prop}
    (I : ℕ → Files β → Prop) (lo : ℕ) (hcr : ∀ k f, I k f → crash f)
    (hs : ∀ k f, lo ≤ k → I (k + 1) f → I k (Function.update f (.record (k + 1)) none))
    (state : State) (last : ℕ) (hlo : lo ≤ last) (hok : ∀ f, I lo f → post (.ok ()) ⟨state, lo⟩ f)
    (hf : ∀ k f, lo ≤ k → k < last → I (k + 1) f → faults (.remove (.installed (.record (k + 1)))) →
      ∀ e, post (.error (.io "delete record" e)) ⟨state, k + 1⟩ f)
    (h : I last (files d)) :
    WP faults crash (removeNewestFirst (inclusive (lo + 1) last).reverse) post ⟨state, last⟩ d := by
  induction last, hlo using Nat.le_induction generalizing d with
  | base =>
    rw [inclusive_eq_nil (Nat.lt_succ_self lo)]
    exact ⟨hcr _ _ h, hok _ h⟩
  | succ last hlo ih =>
    rw [inclusive_snoc (by omega), reverse_append]
    have hI := hs last _ hlo h
    refine wp_then (Q := fun _ => I last) (t := Journal.mk state (last + 1)) ?_ fun _ w hI => ?_
    · exact wp_remove (hcr _ _ h) (hcr _ _ hI) ⟨rfl, hI⟩ (hf last _ hlo (Nat.lt_succ_self last) h)
    · have hre := ih (fun k f hk hlt => hf k f hk (by omega)) hI
      exact Method.wp_get_seq (hcr _ _ hI) (Method.wp_set_seq hre)

variable {j : Journal} {seq : ℕ}

section Counters
variable {entry : JournalEntry β} {post : Except Error Unit → Journal → Files β → Prop}
  {lease : String}

def appended (f : Files β) (last : ℕ) (entry : JournalEntry β) : Files β :=
  Function.update f (.record (last + 1)) (some (.record { entry with seq := last + 1 }))

theorem appended_record_self (f : Files β) (last : ℕ) (entry : JournalEntry β) :
    appended f last entry (.record (last + 1)) = some (.record { entry with seq := last + 1 }) :=
  update_self _ _ _

theorem appended_record_ne {f : Files β} {last n : ℕ} (h : n ≠ last + 1) :
    appended f last entry (.record n) = f (.record n) :=
  update_of_ne (by simpa using h) _ _

theorem wp_append {post : Except Error (JournalRecord β) → Journal → Files β → Prop}
    (hb : crash (files d)) (hfu : u64Max ≤ j.last → post (.error .sequenceExhausted) j (files d))
    (ha : j.last < u64Max → crash (appended (files d) j.last entry))
    (hok : j.last < u64Max → post (.ok { entry with seq := j.last + 1 })
      { j with last := j.last + 1 } (appended (files d) j.last entry))
    (hs : faults (.syncDir (some (.record (j.last + 1)))) →
      ∀ e, post (.error (.io "sync directory" e)) j (appended (files d) j.last entry))
    (hf : Fails faults post j (files d)) : WP faults crash (append entry) post j d := by
  refine Method.wp_get_seq hb ?_
  cases hseq : checkedAdd j.last 1 with
  | none => exact ⟨hb, hfu (by have := checkedAdd_eq_none.mp hseq; omega)⟩
  | some seq =>
    obtain ⟨rfl, hmax⟩ := checkedAdd_eq_some.mp hseq
    refine wp_then (Q := fun _ f => f = appended (files d) j.last entry)
      (wp_install hb (ha hmax) ⟨rfl, rfl⟩ hs hf) fun _ w hw => ?_
    refine Method.wp_set_seq ((Method.wp_pure _).mpr ?_)
    rw [hw]
    exact ⟨ha hmax, hok hmax⟩

theorem wp_acknowledge_ahead (hseq : j.last < seq) (hc : crash (files d))
    (herr : post (.error (.ackAhead seq j.last)) j (files d)) :
    WP faults crash (acknowledge seq) post j d := by
  refine Method.wp_get_seq hc ?_
  rw [if_pos hseq]
  exact ⟨hc, herr⟩

theorem wp_acknowledge_old (hseq : seq ≤ j.last) (hold : seq ≤ j.state.acked)
    (hc : crash (files d)) (hok : post (.ok ()) j (files d)) :
    WP faults crash (acknowledge seq) post j d := by
  refine Method.wp_get_seq hc ?_
  rw [if_neg (by omega), if_pos hold]
  exact ⟨hc, hok⟩

def saved (f : Files β) (state : State) : Files β := Function.update f .state (some (.state state))

@[simp] theorem saved_record (f : Files β) (state : State) (n : ℕ) :
    saved f state (.record n) = f (.record n) :=
  update_of_ne (by simp) _ _

/-- The saved state is in place before the first record is deleted, and the
records go oldest first. -/
theorem wp_acknowledge_new {state : State} (hst : state = { j.state with acked := seq })
    (hseq : seq ≤ j.last) (hnew : j.state.acked < seq) (hmax : j.last ≤ u64Max)
    (hbe : crash (files d)) (hcut : ∀ k, j.state.acked ≤ k → k ≤ seq →
      crash (without (saved (files d) state) (Set.Ioc j.state.acked k)))
    (hok : post (.ok ()) { j with state := state }
      (without (saved (files d) state) (Set.Ioc j.state.acked seq)))
    (hsav : faults (.syncDir (some .state)) →
      ∀ e, post (.error (.io "sync directory" e)) j (saved (files d) state))
    (hrem : ∀ k, j.state.acked ≤ k → k < seq → faults (.remove (.installed (.record (k + 1)))) →
      ∀ e, post (.error (.io "delete record" e)) { j with state := state }
        (without (saved (files d) state) (Set.Ioc j.state.acked k)))
    (hsy : faults (.syncDir none) →
      ∀ e, post (.error (.io "sync directory" e)) { j with state := state }
        (without (saved (files d) state) (Set.Ioc j.state.acked seq)))
    (hfa : Fails faults post j (files d)) : WP faults crash (acknowledge seq) post j d := by
  have hem : without (saved (files d) state) (Set.Ioc j.state.acked j.state.acked) =
      saved (files d) state := by simp
  have hsa : crash (saved (files d) state) := hem ▸ hcut _ le_rfl hnew.le
  refine Method.wp_get_seq hbe ?_
  rw [if_neg (by omega), if_neg (by omega), saturatingAdd_of_lt (by omega), ← hst]
  refine wp_then (Q := fun _ f => f = saved (files d) state)
    (wp_install hbe hsa ⟨rfl, rfl⟩ hsav hfa) fun _ w hw => Method.wp_set_seq ?_
  refine wp_then (t := ⟨state, j.last⟩)
    (Q := fun _ f => f = without (saved (files d) state) (Set.Ioc j.state.acked seq)) ?_
      fun _ w hw => ?_
  · refine wp_removeAll (fun k f => j.state.acked ≤ k ∧ k ≤ seq ∧
      f = without (saved (files d) state) (Set.Ioc j.state.acked k))
      ?_ ?_ ?_ ?_ hnew.le ⟨le_rfl, hnew.le, by rw [hem, hw]⟩
    · rintro k f ⟨hk, hks, rfl⟩
      exact hcut k hk hks
    · rintro k f hlt ⟨hk, -, rfl⟩
      refine ⟨by omega, hlt, ?_⟩
      rw [without_update_none]
      congr 1
      ext m
      simp only [Set.mem_insert_iff, Set.mem_Ioc]
      omega
    · rintro f ⟨-, -, rfl⟩
      exact ⟨rfl, rfl⟩
    · rintro k f hlt ⟨hk, -, rfl⟩ hc e
      exact hrem k hk hlt hc e
  · exact wp_syncDir (hw ▸ hcut seq hnew.le le_rfl) (hw ▸ hok) fun hc e => hw ▸ hsy hc e

theorem wp_useLease_same {post : Except Error Bool → Journal → Files β → Prop}
    (hl : j.state.leaseId = some lease) (hc : crash (files d))
    (hok : post (.ok false) j (files d)) : WP faults crash (useLease lease) post j d := by
  refine Method.wp_get_seq hc ?_
  rw [if_pos hl]
  exact ⟨hc, hok⟩

/-- The old records go newest first, with the counter; the new lease's state is
saved last. `lo` is the acknowledged sequence, short of the top of the range. -/
theorem wp_useLease_new {post : Except Error Bool → Journal → Files β → Prop}
    {lo : ℕ} (hlo : saturatingAdd j.state.acked 1 = lo + 1) (hla : lo ≤ j.last)
    (hle : j.state.leaseId ≠ some lease)
    (hcut : ∀ k, lo ≤ k → k ≤ j.last → crash (without (files d) (Set.Ioc k j.last)))
    (hnew : crash (saved (without (files d) (Set.Ioc lo j.last)) ⟨some lease, 0⟩))
    (hok : post (.ok true) ⟨⟨some lease, 0⟩, 0⟩
      (saved (without (files d) (Set.Ioc lo j.last)) ⟨some lease, 0⟩))
    (hre : ∀ k, lo ≤ k → k < j.last → faults (.remove (.installed (.record (k + 1)))) →
      ∀ e, post (.error (.io "delete record" e)) { j with last := k + 1 }
        (without (files d) (Set.Ioc (k + 1) j.last)))
    (hsa : faults (.syncDir (some .state)) →
      ∀ e, post (.error (.io "sync directory" e)) { j with last := lo }
        (saved (without (files d) (Set.Ioc lo j.last)) ⟨some lease, 0⟩))
    (hfa : Fails faults post { j with last := lo } (without (files d) (Set.Ioc lo j.last))) :
    WP faults crash (useLease lease) post j d := by
  have hem : without (files d) (Set.Ioc j.last j.last) = files d := by simp
  have hbe : crash (files d) := hem ▸ hcut _ hla le_rfl
  have hcu := hcut lo le_rfl hla
  refine Method.wp_get_seq hbe ?_
  rw [if_neg hle, hlo]
  refine wp_then (Q := fun _ f => f = without (files d) (Set.Ioc lo j.last)) (t :=
    { j with last := lo })
    ?_ fun _ w hw => ?_
  · refine wp_removeNewestFirst
      (fun k f => lo ≤ k ∧ k ≤ j.last ∧ f = without (files d) (Set.Ioc k j.last)) lo
      ?_ ?_ j.state j.last hla ?_ ?_ ⟨hla, le_rfl, hem.symm⟩
    · rintro k f ⟨hk, hkl, rfl⟩
      exact hcut k hk hkl
    · rintro k f hk ⟨-, hkl, rfl⟩
      refine ⟨hk, by omega, ?_⟩
      rw [without_update_none]
      congr 1
      ext m
      simp only [Set.mem_insert_iff, Set.mem_Ioc]
      omega
    · rintro f ⟨-, -, rfl⟩
      exact ⟨rfl, rfl⟩
    · rintro k f hk hlt ⟨-, -, rfl⟩ hc e
      exact hre k hk hlt hc e
  refine wp_then (Q := fun _ f => f = without (files d) (Set.Ioc lo j.last))
    (wp_syncDir (hw ▸ hcu) ⟨rfl, hw⟩ fun hc e => hw.symm ▸ hfa _ hc _ e) fun _ w hw => ?_
  refine wp_then (Q := fun _ f => f = saved (without (files d) (Set.Ioc lo j.last)) ⟨some lease, 0⟩)
    (wp_install (hw ▸ hcu) (hw ▸ hnew) ⟨rfl, by rw [hw]; rfl⟩ (hw ▸ hsa) (hw ▸ hfa)) fun _ w hw =>
      ?_
  refine Method.wp_set_seq ((Method.wp_pure _).mpr ?_)
  rw [hw]
  exact ⟨hnew, hok⟩

end Counters

theorem decodeRecord_eq_ok {c : Option (Content β)} {r : JournalRecord β} :
    decodeRecord n c = .ok r ↔ c = some (.record r) ∧ r.seq = n := by
  unfold decodeRecord
  split
  · simp
  · split_ifs with h
    · refine ⟨nofun, ?_⟩
      rintro ⟨⟨⟩, hn⟩
      exact absurd hn h
    · rw [ne_eq, not_not] at h
      constructor
      · rintro ⟨⟩
        exact ⟨rfl, h⟩
      · rintro ⟨⟨⟩, -⟩
        rfl
  next c hc =>
    refine ⟨nofun, ?_⟩
    rintro ⟨hr, -⟩
    exact absurd (some.inj hr) (hc r)

def ReadsAs (f : Files β) (seqs : List ℕ) (rs : List (JournalRecord β)) : Prop :=
  List.Forall₂ (fun n r => f (.record n) = some (.record r) ∧ r.seq = n) seqs rs

theorem wp_readRecords {post : Except Error (List (JournalRecord β)) → σ → Files β → Prop}
    (seqs : List ℕ) (hcr : crash (files d))
    (hok : ∀ rs, ReadsAs (files d) seqs rs → post (.ok rs) s (files d))
    (hbad : ∀ n ∈ seqs, ∀ e, decodeRecord n (files d (.record n)) = .error e →
      post (.error e) s (files d))
    (hf : Fails faults post s (files d)) : WP faults crash (readRecords seqs) post s d := by
  induction seqs generalizing post with
  | nil => exact ⟨hcr, hok [] .nil⟩
  | cons n seqs ih =>
    refine Method.wp_perform_seq hcr ?_ fun hc e => hf _ hc _ e
    split
    · rename_i e hr
      exact ⟨hcr, hbad n (by simp) e hr⟩
    · rename_i r hr
      refine Method.wp_map (@ih (fun q => post (q.map (r :: ·))) ?_ ?_ hf)
      · exact fun rs hrs => hok _ (.cons (decodeRecord_eq_ok.mp hr) hrs)
      · exact fun m hm e he => hbad m (by simp [hm]) e he

theorem wp_recordsAfter {post : Except Error (List (JournalRecord β)) → Journal → Files β → Prop}
    (hc : crash (files d)) (hok : ∀ rs, ReadsAs (files d)
      (inclusive (saturatingAdd (max seq j.state.acked) 1) j.last) rs → post (.ok rs) j (files d))
    (hbad : ∀ n, saturatingAdd (max seq j.state.acked) 1 ≤ n → n ≤ j.last →
      ∀ e, decodeRecord n (files d (.record n)) = .error e → post (.error e) j (files d))
    (hf : Fails faults post j (files d)) : WP faults crash (recordsAfter seq) post j d := by
  refine Method.wp_get_seq hc (wp_readRecords _ hc hok ?_ hf)
  intro n hn
  rw [mem_inclusive] at hn
  exact hbad n hn.1 hn.2

section Opening

/-- The state a directory is opened with: a new directory starts unbound. -/
def openedState (f : Files β) : Option State :=
  match f .state with
  | none => some ⟨none, 0⟩
  | some (.state st) => some st
  | some _ => none

/-- The files once a missing state is saved. -/
def ensured (f : Files β) : Files β :=
  match f .state with
  | none => saved f ⟨none, 0⟩
  | some _ => f

@[simp] theorem ensured_record (f : Files β) (n : ℕ) : ensured f (.record n) = f (.record n) := by
  unfold ensured
  cases f .state with
  | none => exact update_of_ne (by simp) _ _
  | some c => rfl

theorem openedState_saved (f : Files β) (state : State) :
    openedState (saved f state) = some state := rfl

theorem openedState_ensured (f : Files β) : openedState (ensured f) = openedState f := by
  unfold ensured
  cases h : f .state with
  | none => rw [openedState_saved, openedState, h]
  | some c => rfl

theorem openedState_appended (f : Files β) (last : ℕ) (entry : JournalEntry β) :
    openedState (appended f last entry) = openedState f := rfl

variable {st : State} {names : List Name} {acked top : ℕ}

theorem wp_openState {post : Except Error State → σ → Files β → Prop}
    (hst : openedState (files d) = some st) (hb : crash (files d))
    (ha : crash (ensured (files d))) (hok : post (.ok st) s (ensured (files d)))
    (hfa : ∀ call, faults call → ∀ context e, post (.error (.io context e)) s (files d) ∧
        post (.error (.io context e)) s (ensured (files d))) :
    WP faults crash openState post s d := by
  refine Method.wp_perform_seq hb ?_ fun hc e => (hfa _ hc _ e).1
  unfold openedState at hst
  unfold ensured at ha hok hfa
  split
  · rename_i st' hf
    replace hf : files d .state = some (.state st') := hf
    rw [hf] at hst ha hok hfa
    obtain rfl := some.inj hst
    exact ⟨hb, hok⟩
  · rename_i c hc hf
    replace hf : files d .state = some c := hf
    rw [hf] at hst
    cases c with
    | torn | record r => cases hst
    | state st' => exact absurd rfl (hc st')
  · rename_i hf
    replace hf : files d .state = none := hf
    rw [hf] at hst ha hok hfa
    obtain rfl := some.inj hst
    refine Method.wp_map ?_
    refine wp_install hb ha hok ?_ ?_
    · exact fun hc e => (hfa _ hc _ e).2
    · exact fun call hc context e => (hfa _ hc context e).1

def recordSeqs (names : List Name) : List ℕ :=
  names.filterMap fun
    | .installed (.record n) => some n
    | _ => none

theorem wp_scanNames {post : Except Error (List ℕ) → σ → Files β → Prop} (names : List Name)
    (hz : 0 ∉ recordSeqs names) (hcr : crash (files d))
    (hok : post (.ok (recordSeqs names)) s (files d)) (hf : Fails faults post s (files d)) :
    WP faults crash (scanNames names) post s d := by
  induction names generalizing post d with
  | nil => exact ⟨hcr, hok⟩
  | cons name names ih =>
    match name with
    | .pending t =>
      have hfi : files (perform (.remove (.pending t)) d).2 = files d :=
        files_erase_pending d t
      refine Method.wp_perform_seq hcr ?_ fun hc e => hf _ hc _ e
      exact ih hz (hfi ▸ hcr) (hfi ▸ hok) (hfi ▸ hf)
    | .installed .state => exact ih hz hcr hok hf
    | .installed (.record n) =>
      have hn : n ≠ 0 := by
        rintro rfl
        exact hz (by simp [recordSeqs])
      unfold WP scanNames
      rw [if_neg hn]
      refine Method.wp_map ?_
      exact ih (fun h => hz (mem_cons_of_mem n h)) hcr hok hf

theorem mem_recordSeqs {n : ℕ} : n ∈ recordSeqs names ↔ Name.installed (.record n) ∈ names := by
  unfold recordSeqs
  rw [mem_filterMap]
  constructor
  · rintro ⟨name, hmem, hn⟩
    match name with
    | .installed (.record m) =>
      obtain rfl := some.inj hn
      exact hmem
    | .installed .state => cases hn
    | .pending t => cases hn
  · exact fun h => ⟨_, h, rfl⟩

theorem recordSeqs_nodup (h : names.Nodup) : (recordSeqs names).Nodup := by
  refine h.filterMap fun a a' n ha ha' => ?_
  match a, a' with
  | .installed (.record m), .installed (.record m') =>
    have hm : m = n := some.inj ha
    have hm' : m' = n := some.inj ha'
    rw [hm, hm']
  | .installed .state, _ => cases ha
  | .pending t, _ => cases ha
  | .installed (.record _), .installed .state => cases ha'
  | .installed (.record _), .pending t => cases ha'

theorem adoptRecords_run (acked last top : ℕ) (ha : acked ≤ last) (hl : last ≤ top)
    (htop : top ≤ u64Max) :
    adoptRecords acked last (inclusive (last + 1) top) =
      (pure top : Method (fileSystem β) σ Error ℕ) := by
  obtain ⟨k, rfl⟩ := Nat.le.dest hl
  induction k generalizing last with
  | zero =>
    rw [inclusive_eq_nil (by omega)]
    rfl
  | succ k ih =>
    have hn : checkedAdd last 1 = some (last + 1) :=
      checkedAdd_eq_some.mpr ⟨rfl, by omega⟩
    rw [inclusive_cons (by omega), adoptRecords, if_neg (by omega), hn, if_neg (by simp)]
    rw [show last + (k + 1) = last + 1 + k by omega]
    exact ih (last + 1) (by omega) (by omega) (by omega)

/-- Leftovers of the acknowledged records come first and are deleted; `top` is
the last of the records that run on from the acknowledged sequence. -/
theorem wp_adoptRecords {post : Except Error ℕ → σ → Files β → Prop} (htop : acked ≤ top)
    (hmax : top ≤ u64Max) (low : List ℕ) (hlow : ∀ n ∈ low, n ≤ acked) (f : Files β)
    (gone : Set ℕ) (hg : ∀ n ∈ gone, n ≤ acked)
    (hcr : ∀ p : Set ℕ, (∀ n ∈ p, n ≤ acked) → crash (without f p))
    (hok : ∀ p : Set ℕ, (∀ n ∈ p, n ≤ acked) → (∀ n, n ∈ gone ∨ n ∈ low → n ∈ p) →
      post (.ok top) s (without f p))
    (hf : ∀ call, faults call → ∀ context e, ∀ p : Set ℕ, (∀ n ∈ p, n ≤ acked) →
      post (.error (.io context e)) s (without f p)) (hd : files d = without f gone) :
    WP faults crash (adoptRecords acked acked (low ++ inclusive (acked + 1) top)) post s d := by
  induction low generalizing d gone with
  | nil =>
    rw [nil_append]
    unfold WP
    rw [adoptRecords_run acked acked top le_rfl htop hmax, Method.wp_pure, hd]
    exact ⟨hcr gone hg, hok gone hg fun n hn => by simpa using hn⟩
  | cons n low ih =>
    have hn : n ≤ acked := hlow n (by simp)
    have hg' : ∀ m ∈ insert n gone, m ≤ acked := by
      rintro m (rfl | hm)
      · exact hn
      · exact hg m hm
    have hne : Function.update (files d) (.record n) none = without f (insert n gone) := by
      rw [hd, without_update_none]
    rw [cons_append]
    unfold WP adoptRecords
    rw [if_pos hn]
    refine wp_then (t := s) (Q := fun _ g => g = without f (insert n gone)) ?_ fun _ w hw => ?_
    · exact wp_remove (hd ▸ hcr gone hg) (hne ▸ hcr _ hg') ⟨rfl, hne⟩ fun hc e =>
        hd ▸ hf _ hc _ e gone hg
    · refine ih (fun m hm => hlow m (by simp [hm])) (insert n gone) hg' ?_ hw
      intro p hp hco
      refine hok p hp fun m hm => hco m ?_
      rcases hm with hm | hm
      · exact .inl (.inr hm)
      · rcases mem_cons.mp hm with rfl | hm
        · exact .inl (.inl rfl)
        · exact .inr hm

structure Contiguous (f : Files β) (acked top : ℕ) : Prop where
  acked_le : acked ≤ top
  top_le : top ≤ u64Max
  zero : f (.record 0) = none
  isSome : ∀ n, acked < n → ((f (.record n)).isSome ↔ n ≤ top)

theorem Contiguous.sorted (h : Contiguous (files d) acked top) :
    ∃ low, (recordSeqs d.keys).insertionSort (· ≤ ·) = low ++ inclusive (acked + 1) top ∧
      (∀ n ∈ low, n ≤ acked) ∧ (∀ n, n ≤ acked → (files d (.record n)).isSome → n ∈ low) := by
  have hmem : ∀ n, n ∈ recordSeqs d.keys ↔ (files d (.record n)).isSome := fun n => by
    rw [mem_recordSeqs, files_isSome]
  let low := ((recordSeqs d.keys).filter (· ≤ acked)).insertionSort (· ≤ ·)
  have hlow : ∀ n, n ∈ low ↔ n ≤ acked ∧ (files d (.record n)).isSome := fun n => by
    rw [mem_insertionSort (· ≤ ·), mem_filter, hmem, decide_eq_true_eq, and_comm]
  have hlt : ∀ a ∈ low, ∀ b ∈ inclusive (acked + 1) top, a < b := fun a ha b hb =>
    ((hlow a).mp ha).1.trans_lt (mem_inclusive.mp hb).1
  have hno : (recordSeqs d.keys).Nodup := recordSeqs_nodup d.nodupKeys
  refine ⟨low, ?_, fun n hn => ((hlow n).mp hn).1, fun n hn hs => (hlow n).mpr ⟨hn, hs⟩⟩
  refine List.Perm.eq_of_pairwise' (r := (· ≤ ·)) (pairwise_insertionSort _ _) ?_ ?_
  · rw [pairwise_append]
    exact ⟨pairwise_insertionSort _ _, (inclusive_pairwise _ _).imp Nat.le_of_lt,
      fun a ha b hb => (hlt a ha b hb).le⟩
  · refine (perm_insertionSort _ _).trans ((perm_ext_iff_of_nodup hno ?_).mpr ?_)
    · rw [nodup_append]
      exact ⟨(perm_insertionSort _ _).nodup_iff.mpr (hno.filter _), nodup_range',
        fun a ha b hb => (hlt a ha b hb).ne⟩
    · intro n
      rw [hmem, mem_append, hlow, mem_inclusive]
      by_cases hn : acked < n
      · rw [h.isSome n hn]
        omega
      · constructor
        · exact fun hs => .inl ⟨by omega, hs⟩
        · rintro (⟨-, hs⟩ | ⟨hlt, -⟩)
          · exact hs
          · omega

/-- Opening a directory whose records are contiguous succeeds, whatever is left
of the acknowledged ones. -/
theorem wp_openJournal {post : Except Error Journal → σ → Files β → Prop}
    (hst : openedState (files d) = some st) (hco : Contiguous (files d) st.acked top)
    (hbe : crash (files d))
    (hcr : ∀ p : Set ℕ, (∀ n ∈ p, n ≤ st.acked) → crash (without (ensured (files d)) p))
    (hok : post (.ok ⟨st, top⟩) s (without (ensured (files d)) (Set.Iic st.acked)))
    (hfa : ∀ call, faults call → ∀ context e, post (.error (.io context e)) s (files d) ∧
      ∀ p : Set ℕ, (∀ n ∈ p, n ≤ st.acked) →
        post (.error (.io context e)) s (without (ensured (files d)) p)) :
    WP faults crash openJournal post s d := by
  have hen : crash (ensured (files d)) := by
    have h := hcr ∅ (by simp)
    rwa [without_empty] at h
  have hfau : Fails faults post s (ensured (files d)) := by
    intro call hc context e
    have h := (hfa call hc context e).2 ∅ (by simp)
    rwa [without_empty] at h
  refine Method.wp_perform_seq hbe ?_ fun hc e => (hfa _ hc _ e).1
  refine wp_then (Q := fun st' f => st' = st ∧ f = ensured (files d))
    (wp_openState hst hbe hen ⟨rfl, rfl, rfl⟩
    fun call hc context e => ⟨(hfa call hc context e).1, hfau call hc context e⟩) ?_
  rintro st w ⟨rfl, hw⟩
  have hco' : Contiguous (files w) st.acked top := by
    refine ⟨hco.acked_le, hco.top_le, ?_, fun n hn => ?_⟩
    · rw [hw, ensured_record, hco.zero]
    · rw [hw, ensured_record, hco.isSome n hn]
  refine Method.wp_perform_seq (hw ▸ hen) ?_ fun hc e => hw ▸ hfau _ hc _ e
  have hze : 0 ∉ recordSeqs w.keys := by
    rw [mem_recordSeqs, ← files_isSome, hco'.zero]
    simp
  refine wp_then (Q := fun seqs f => seqs = recordSeqs w.keys ∧ f = files w)
    (wp_scanNames _ hze (hw ▸ hen) ⟨rfl, rfl, rfl⟩ (hw ▸ hfau)) ?_
  rintro _ v ⟨rfl, hv⟩
  obtain ⟨low, hso, hlow, hall⟩ := hco'.sorted
  rw [hso]
  refine wp_then (t := s) (Q :=
    fun last f => last = top ∧ f = without (ensured (files d)) (Set.Iic st.acked)) ?_ ?_
  · refine wp_adoptRecords hco.acked_le hco.top_le low hlow (ensured (files d)) ∅ (by simp)
      hcr ?_ ?_ (by rw [without_empty, hv, hw])
    · intro p hp hcov
      refine ⟨rfl, rfl, ?_⟩
      funext t
      cases t with
      | state => rfl
      | record n =>
        by_cases hn : n ≤ st.acked
        · rw [without_record_mem (p := Set.Iic st.acked) hn]
          by_cases hnp : n ∈ p
          · exact without_record_mem hnp
          · rw [without_record_notMem hnp, ← hw]
            by_contra hs
            exact hnp (hcov n (.inr (hall n hn (isSome_iff_ne_none.mpr hs))))
        · rw [without_record_notMem (p := Set.Iic st.acked) hn,
            without_record_notMem fun h => hn (hp n h)]
    · exact fun call hc context e p hp => (hfa call hc context e).2 p hp
  · rintro _ x ⟨rfl, hx⟩
    unfold WP
    rw [Method.wp_pure, hx]
    exact ⟨hcr _ fun n hn => hn, hok⟩

end Opening

end Intentd.JournalRules
