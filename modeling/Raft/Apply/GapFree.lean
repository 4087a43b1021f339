import Raft.Apply.Reports
import Raft.Log.Contents

/-!
# Entries reach the state machine without a gap

The apply loop is told commit indices and installed snapshots by the event loop, and reads
the entries between from storage, which is compacted meanwhile and may fail.  Without a gap
means that, since the loop started or a snapshot was restored, every committed entry is
reported in its turn, and nothing else.

The loop keeps to this as long as it can read what it was told to apply and every restore
succeeds.  An entry it cannot read is passed over, also when it was compacted because of a
snapshot the loop has still to restore; that restore then comes too late and is dropped.
-/

namespace Raft

variable {ι : Type} {es : List (LogEntry ι)} {lo : Nat}

/-- The entries a group has committed, by index. -/
structure CommittedLog (ι : Type) where
  entry : Nat → LogEntry ι
  index : ∀ i, (entry i).index = i

namespace CommittedLog

variable (log : CommittedLog ι) {i s t u : Nat}

/-- The entries after `s` up to `t`. -/
def between (s t : Nat) : List (LogEntry ι) := (List.range' (s + 1) (t - s)).map log.entry

theorem between_self (s : Nat) : log.between s s = [] := by
  simp [between]

theorem between_append (hst : s ≤ t) (htu : t ≤ u) :
    log.between s t ++ log.between t u = log.between s u := by
  have hmid : t + 1 = s + 1 + (t - s) := by omega
  have hlen : u - s = t - s + (u - t) := by omega
  rw [between, between, between, ← List.map_append, hmid, hlen, ← List.range'_append_1]

theorem between_getLast (h : s < t) : (log.between s t).getLast? = some (log.entry t) := by
  have hlen : t - s = t - s - 1 + 1 := by omega
  have hend : s + 1 + (t - s - 1) = t := by omega
  rw [between, hlen, List.range'_concat, List.map_append]
  simp [hend]

theorem contiguous_between (s t : Nat) : Contiguous (s + 1) (log.between s t) := by
  intro k e hk
  rw [between, List.getElem?_map, Option.map_eq_some_iff] at hk
  obtain ⟨i, hi, rfl⟩ := hk
  obtain ⟨-, rfl⟩ := List.getElem?_eq_some_iff.mp hi
  rw [log.index, List.getElem_range', Nat.one_mul]

theorem index_of_mem_between {e : LogEntry ι} (h : e ∈ log.between s t) : s < e.index ∧ e.index ≤ t := by
  obtain ⟨i, hi, rfl⟩ := List.mem_map.mp h
  rw [List.mem_range'_1] at hi
  rw [log.index]
  omega

theorem eq_between (hc : Contiguous (s + 1) es) (hlen : es.length = t - s)
    (hes : ∀ e ∈ es, e = log.entry e.index) : es = log.between s t := by
  apply List.ext_getElem?
  intro k
  rw [between, List.getElem?_map, ← hlen]
  cases hk : es[k]? with
  | none => simp [List.getElem?_eq_none_iff.mp hk]
  | some e =>
    have hidx : s + 1 + k = e.index := (hc k e hk).symm
    have hlt : k < es.length := (List.getElem?_eq_some_iff.mp hk).1
    rw [List.getElem?_range' hlt, Option.map_some, Nat.one_mul, hidx]
    exact congrArg some (hes e (List.mem_of_getElem? hk))

end CommittedLog

theorem Store.getLogEntries_spec {s : Store ι} (h : s.Wf) {hi : Nat} (hlt : lo < hi)
    (hget : s.getLogEntries lo hi = some es) :
    Contiguous lo es ∧ es.length = hi - lo ∧ ∀ e ∈ es, e ∈ s.entries := by
  unfold getLogEntries at hget
  rw [if_neg (by omega)] at hget
  split_ifs at hget with hne hrange
  cases hget
  have hlast := lastIndex_eq h.contiguous hne
  have hstart : s.firstIndex + (lo - s.firstIndex) = lo := by omega
  refine ⟨?_, ?_, fun e he => List.mem_of_mem_drop (List.mem_of_mem_take he)⟩
  · have := (h.contiguous.drop (lo - s.firstIndex)).take (hi - lo)
    rwa [hstart] at this
  · rw [List.length_take, List.length_drop]
    omega

namespace ApplyLoop

def cleared (a : ApplyLoop ι) : ApplyLoop ι :=
  { a with commitNotify := none, restore := none, snapshotTrigger := none }

section Cleared

variable (machine : List (LogEntry ι) → LogEntry ι → ApplyOutcome)

theorem settleAll_cleared (a : ApplyLoop ι) (outs : List (PendingEntry ι × ApplyOutcome)) :
    (settleAll a outs).cleared = settleAll a.cleared outs := by
  induction outs generalizing a with
  | nil => rfl
  | cons p outs ih => exact ih (a.settle p.1 p.2)

theorem flushed_cleared (s : ApplyLoop ι × List (PendingEntry ι)) :
    (flushed machine s).cleared = flushed machine (s.1.cleared, s.2) :=
  settleAll_cleared { s.1 with sm := s.1.sm ++ s.2.map (·.entry) } _

theorem applyEntry_cleared (s : ApplyLoop ι × List (PendingEntry ι)) (e : LogEntry ι) :
    ((applyEntry machine s e).1.cleared, (applyEntry machine s e).2) =
      applyEntry machine (s.1.cleared, s.2) e := by
  have h := flushed_cleared machine s
  cases hop : e.configOp with
  | some op =>
    rw [applyEntry_config machine s hop, applyEntry_config machine (s.1.cleared, s.2) hop, ← h]
    rfl
  | none =>
    cases hknown : Raft.known s.1.clientTable e with
    | some cached =>
      rw [applyEntry_known machine s hknown, applyEntry_known machine (s.1.cleared, s.2) hknown, ← h]
      rfl
    | none =>
      rw [applyEntry_queued machine s hop hknown,
        applyEntry_queued machine (s.1.cleared, s.2) hop hknown]

theorem applyEntries_cleared (a : ApplyLoop ι) (es : List (LogEntry ι)) :
    (a.applyEntries machine es).cleared = a.cleared.applyEntries machine es := by
  have hfold (s : ApplyLoop ι × List (PendingEntry ι)) :
      (flushed machine (es.foldl (applyEntry machine) s)).cleared =
        flushed machine (es.foldl (applyEntry machine) (s.1.cleared, s.2)) := by
    induction es generalizing s with
    | nil => exact flushed_cleared machine s
    | cons e es ih =>
      rw [List.foldl_cons, ih, List.foldl_cons, applyEntry_cleared]
  exact hfold (a, [])

end Cleared

/-- A snapshot waits that is ahead of the loop. -/
def Due (a : ApplyLoop ι) : Bool :=
  match a.restore with
  | some snap => a.localLastApplied < snap.position.lastIncludedIndex
  | none => false

theorem restoreFrom_of_not_due {a : ApplyLoop ι} (h : a.Due = false) (ok : Bool) :
    (a.restoreFrom ok).cleared = a.cleared := by
  unfold Due at h
  unfold restoreFrom
  cases hres : a.restore with
  | none => rfl
  | some snap =>
    rw [hres] at h
    have hle : snap.position.lastIncludedIndex ≤ a.localLastApplied := by simpa using h
    dsimp only
    rw [if_pos hle]
    rfl

theorem restoreFrom_of_due {a : ApplyLoop ι} (h : a.Due = true) (ok : Bool) :
    (a.restoreFrom ok).results = a.results ∧
      a.localLastApplied < (a.restoreFrom ok).localLastApplied := by
  unfold Due at h
  unfold restoreFrom
  cases hres : a.restore with
  | none =>
    rw [hres] at h
    cases h
  | some snap =>
    rw [hres] at h
    have hlt : a.localLastApplied < snap.position.lastIncludedIndex := by simpa using h
    dsimp only
    rw [if_neg (by omega)]
    exact ⟨rfl, hlt⟩

end ApplyLoop

/-- What the loop sees: a commit index or a snapshot is named, or one of the two is taken up. -/
inductive ApplyEvent (ι : Type)
  | notify (commitIdx : Nat)
  | install (snap : Snapshot ι)
  | commit (s : Store ι) (faults : ReadFaults)
  | restore (ok : Bool)

namespace ApplyLoop

/-- Storage is a log, and what it holds up to the commit index is what was committed. -/
def Sees (log : CommittedLog ι) (a : ApplyLoop ι) : ApplyEvent ι → Prop
  | .commit s _ => s.Wf ∧ ∀ commitIdx, a.commitNotify = some commitIdx →
      ∀ e ∈ s.entries, e.index ≤ commitIdx → e = log.entry e.index
  | _ => True

theorem sees_between {log : CommittedLog ι} {s : Store ι} {hi : Nat}
    (hs : s.entries = log.between lo hi) (a : ApplyLoop ι) (faults : ReadFaults) :
    a.Sees log (.commit s faults) := by
  refine ⟨Store.wf_of_contiguous (hs ▸ log.contiguous_between lo hi) fun _ => Nat.succ_pos _,
    fun commitIdx _ e he _ => ?_⟩
  rw [hs] at he
  obtain ⟨i, -, rfl⟩ := List.mem_map.mp he
  rw [log.index]

/-- The entries to be applied can be read, and a snapshot that is due is restored. -/
def Smooth (a : ApplyLoop ι) : ApplyEvent ι → Prop
  | .commit s faults => ∀ commitIdx, a.commitNotify = some commitIdx →
      (faults.range = false ∧ (s.getLogEntries (a.localLastApplied + 1) (commitIdx + 1)).isSome) ∨
        ∀ i, a.localLastApplied < i → i ≤ commitIdx →
          faults.entry i = false ∧ (s.getLogEntries i (i + 1)).isSome
  | .restore ok => a.Due → ok = true
  | _ => True

end ApplyLoop

/-- The loop as it was when the current run began, and as it is. -/
structure Progress (ι : Type) where
  base : ApplyLoop ι
  now : ApplyLoop ι

namespace Progress

open ApplyLoop

variable (machine : List (LogEntry ι) → LogEntry ι → ApplyOutcome)

def start (a : ApplyLoop ι) : Progress ι := ⟨a.cleared, a⟩

/-- One event.  A restored snapshot begins a new run. -/
def step (p : Progress ι) : ApplyEvent ι → Progress ι
  | .notify commitIdx => { p with now := { p.now with commitNotify := some commitIdx } }
  | .install snap => { p with now := { p.now with restore := some snap } }
  | .commit s faults => { p with now := p.now.commit machine s faults }
  | .restore ok =>
    { base := if p.now.Due ∧ ok = true then (p.now.restoreFrom ok).cleared else p.base
      now := p.now.restoreFrom ok }

def run (p : Progress ι) (evs : List (ApplyEvent ι)) : Progress ι := evs.foldl (step machine) p

/-- Every event meets a condition on the loop that sees it. -/
def Along (P : ApplyLoop ι → ApplyEvent ι → Prop) : Progress ι → List (ApplyEvent ι) → Prop
  | _, [] => True
  | p, ev :: evs => P p.now ev ∧ Along P (p.step machine ev) evs

/-- Since the run began, every committed entry has had its report, in order, and nothing else. -/
structure GapFree (log : CommittedLog ι) (p : Progress ι) : Prop where
  onward : p.base.localLastApplied ≤ p.now.localLastApplied
  reports : ∃ ranges : List (List (LogEntry ι)),
    (reportsOf machine p.base ranges).map Report.entry =
        log.between p.base.localLastApplied p.now.localLastApplied ∧
      p.now.sm = p.base.sm ++ (reportsOf machine p.base ranges).filterMap Report.given ∧
      p.now.results = p.base.results ++ (reportsOf machine p.base ranges).map Report.result
  covered : ∀ r ∈ p.base.results, r.index ≤ p.base.localLastApplied

/-- The loop is where the ranges since the run began have taken it. -/
structure Follows (log : CommittedLog ι) (p : Progress ι) : Prop where
  onward : p.base.localLastApplied ≤ p.now.localLastApplied
  ranges : ∃ ranges : List (List (LogEntry ι)),
    ranges.flatten = log.between p.base.localLastApplied p.now.localLastApplied ∧
      p.now.cleared = applyRanges machine p.base ranges
  covered : ∀ r ∈ p.base.results, r.index ≤ p.base.localLastApplied

variable {machine} {log : CommittedLog ι} {p : Progress ι} {a : ApplyLoop ι}

theorem Follows.gapFree (h : p.Follows machine log) : p.GapFree machine log := by
  obtain ⟨ranges, hflat, hnow⟩ := h.ranges
  refine ⟨h.onward, ⟨ranges, ?_, ?_, ?_⟩, h.covered⟩
  · rw [reportsOf_entries, hflat]
  · rw [← applyRanges_sm, ← hnow]
    rfl
  · rw [← applyRanges_results, ← hnow]
    rfl

theorem Follows.results_le (h : p.Follows machine log) :
    ∀ r ∈ p.now.results, r.index ≤ p.now.localLastApplied := by
  obtain ⟨ranges, hentries, -, hresults⟩ := h.gapFree.reports
  rw [hresults]
  refine List.forall_mem_append.mpr
    ⟨fun r hr => (h.covered r hr).trans h.onward, List.forall_mem_map.mpr fun rep hrep => ?_⟩
  have hmem := List.mem_map_of_mem (f := Report.entry) hrep
  rw [hentries] at hmem
  rw [rep.result_index]
  exact (log.index_of_mem_between hmem).2

theorem Follows.start (ha : a.results = []) : (start a).Follows machine log where
  onward := Nat.le_refl _
  ranges := ⟨[], (log.between_self _).symm, rfl⟩
  covered := by simp [Progress.start, cleared, ha]

section

variable (h : p.Follows machine log)

include h

theorem Follows.congr (ha : a.cleared = p.now.cleared) :
    Follows machine log { p with now := a } := by
  have hlast : a.localLastApplied = p.now.localLastApplied :=
    (congrArg ApplyLoop.localLastApplied ha :)
  obtain ⟨ranges, hflat, hnow⟩ := h.ranges
  refine ⟨hlast ▸ h.onward, ⟨ranges, ?_, ha.trans hnow⟩, h.covered⟩
  rw [hflat]
  exact congrArg _ hlast.symm

theorem Follows.extend {commitIdx : Nat} (hlt : p.now.localLastApplied < commitIdx)
    (ha : a.cleared = p.now.cleared) :
    Follows machine log { p with
      now := a.applyEntries machine (log.between p.now.localLastApplied commitIdx) } := by
  obtain ⟨ranges, hflat, hnow⟩ := h.ranges
  have hle := h.onward
  have hflat' : (ranges ++ [log.between p.now.localLastApplied commitIdx]).flatten =
      log.between p.base.localLastApplied commitIdx := by
    rw [List.flatten_append, hflat, List.flatten_singleton, log.between_append hle hlt.le]
  have hnow' : (a.applyEntries machine (log.between p.now.localLastApplied commitIdx)).cleared =
      applyRanges machine p.base (ranges ++ [log.between p.now.localLastApplied commitIdx]) := by
    rw [applyEntries_cleared, ha, hnow, applyRanges_append]
    rfl
  have hlast : (a.applyEntries machine (log.between p.now.localLastApplied commitIdx)).localLastApplied =
      commitIdx := by
    have heq := (congrArg ApplyLoop.localLastApplied hnow' :)
    rw [applyRanges_localLastApplied, hflat', log.between_getLast (by omega), Option.map_some,
      log.index] at heq
    exact heq
  refine ⟨(hle.trans hlt.le).trans hlast.ge, ⟨_, ?_, hnow'⟩, h.covered⟩
  rw [hflat', hlast]

theorem Follows.restored (hresults : a.results = p.now.results)
    (hlt : p.now.localLastApplied < a.localLastApplied) : Follows machine log ⟨a.cleared, a⟩ where
  onward := Nat.le_refl _
  ranges := ⟨[], (log.between_self _).symm, rfl⟩
  covered := by
    intro r hr
    change r ∈ a.results at hr
    rw [hresults] at hr
    exact (h.results_le r hr).trans hlt.le

end

section Reading

variable {s : Store ι} {faults : ReadFaults} {a : ApplyLoop ι} {commitIdx : Nat}

theorem getLogEntries_eq_between (hs : s.Wf)
    (hagree : ∀ e ∈ s.entries, e.index ≤ commitIdx → e = log.entry e.index) (hlt : lo < commitIdx)
    (hget : s.getLogEntries (lo + 1) (commitIdx + 1) = some es) :
    es = log.between lo commitIdx := by
  obtain ⟨hc, hlen, hmem⟩ := Store.getLogEntries_spec hs (by omega) hget
  refine log.eq_between hc (by omega) fun e he => hagree e (hmem e he) ?_
  have := (hc.index_of_mem he).2.1
  omega

theorem applyOneByOne_eq (hs : s.Wf)
    (hagree : ∀ e ∈ s.entries, e.index ≤ commitIdx → e = log.entry e.index)
    (hread : ∀ i, lo < i → i ≤ commitIdx → faults.entry i = false ∧ (s.getLogEntries i (i + 1)).isSome) :
    a.applyOneByOne machine s faults (lo + 1) commitIdx =
      a.applyEntries machine (log.between lo commitIdx) := by
  have hentry : ∀ i ∈ List.range' (lo + 1) (commitIdx + 1 - (lo + 1)),
      (if faults.entry i then none else (s.getLogEntries i (i + 1)).bind (·.head?)) =
        some (log.entry i) := by
    intro i hi
    rw [List.mem_range'_1] at hi
    obtain ⟨hok, hsome⟩ := hread i (by omega) (by omega)
    obtain ⟨es, hes⟩ := Option.isSome_iff_exists.mp hsome
    obtain ⟨hc, hlen, hmem⟩ := Store.getLogEntries_spec hs (by omega) hes
    obtain ⟨e, rfl⟩ : ∃ e, es = [e] := List.length_eq_one_iff.mp (by omega)
    have hidx : e.index = i := hc.head?_index rfl
    have heq := hagree e (hmem e List.mem_cons_self) (by omega)
    rw [hidx] at heq
    simp [hok, hes, heq]
  have hlen : commitIdx - lo = commitIdx + 1 - (lo + 1) := by omega
  unfold applyOneByOne
  dsimp only
  rw [List.filterMap_congr hentry, List.filterMap_eq_map', List.filter_eq_nil_iff.mpr fun i hi => ?_,
    CommittedLog.between, hlen]
  · rfl
  · simp [hentry i hi]

theorem commit_eq (hs : s.Wf) (hnotify : a.commitNotify = some commitIdx)
    (hagree : ∀ e ∈ s.entries, e.index ≤ commitIdx → e = log.entry e.index)
    (hlt : a.localLastApplied < commitIdx) (hsmooth : a.Smooth (.commit s faults)) :
    a.commit machine s faults = { a with commitNotify := none }.applyEntries machine
      (log.between a.localLastApplied commitIdx) := by
  unfold commit
  rw [hnotify]
  dsimp only
  rw [if_neg (by omega)]
  -- The read of the whole range may fail; then the entries are read one by one.
  cases hget : (if faults.range then none else
      s.getLogEntries (a.localLastApplied + 1) (commitIdx + 1)) with
  | some es =>
    rw [Option.ite_none_left_eq_some] at hget
    rw [getLogEntries_eq_between hs hagree hlt hget.2]
  | none =>
    refine applyOneByOne_eq hs hagree ((hsmooth commitIdx hnotify).resolve_left ?_)
    rintro ⟨hok, hsome⟩
    rw [hok] at hget
    simp only [Bool.false_eq_true, if_false] at hget
    rw [hget] at hsome
    cases hsome

end Reading

/-- **One smooth event** leaves no gap. -/
theorem Follows.step (h : p.Follows machine log) {ev : ApplyEvent ι} (hsees : p.now.Sees log ev)
    (hsmooth : p.now.Smooth ev) : (p.step machine ev).Follows machine log := by
  cases ev with
  | notify commitIdx | install snap => exact h.congr rfl
  | commit s faults =>
    cases hnotify : p.now.commitNotify with
    | none =>
      have heq : (p.now.commit machine s faults).cleared = p.now.cleared := by rw [commit, hnotify]
      exact h.congr heq
    | some commitIdx =>
      by_cases hlt : p.now.localLastApplied < commitIdx
      · change Follows machine log { p with now := p.now.commit machine s faults }
        rw [commit_eq hsees.1 hnotify (hsees.2 commitIdx hnotify) hlt hsmooth]
        exact h.extend hlt rfl
      · -- The index has been applied already.
        have heq : (p.now.commit machine s faults).cleared = p.now.cleared := by
          rw [commit, hnotify]
          dsimp only
          rw [if_pos (by omega)]
          rfl
        exact h.congr heq
  | restore ok =>
    cases hdue : p.now.Due with
    | false =>
      have heq : p.step machine (.restore ok) = { p with now := p.now.restoreFrom ok } := by
        simp [Progress.step, hdue]
      rw [heq]
      exact h.congr (restoreFrom_of_not_due hdue ok)
    | true =>
      obtain rfl : ok = true := hsmooth hdue
      have heq : p.step machine (.restore true) =
          ⟨(p.now.restoreFrom true).cleared, p.now.restoreFrom true⟩ := by
        simp [Progress.step, hdue]
      obtain ⟨hresults, hlt⟩ := restoreFrom_of_due hdue true
      rw [heq]
      exact h.restored hresults hlt

theorem Follows.run (h : p.Follows machine log) {evs : List (ApplyEvent ι)}
    (hsees : Along machine (Sees log) p evs) (hsmooth : Along machine Smooth p evs) :
    (p.run machine evs).Follows machine log := by
  induction evs generalizing p with
  | nil => exact h
  | cons ev evs ih => exact ih (h.step hsees.1 hsmooth.1) hsees.2 hsmooth.2

/-- **No gap** as long as every event is smooth. -/
theorem gapFree_run {a : ApplyLoop ι} (ha : a.results = []) {evs : List (ApplyEvent ι)}
    (hsees : Along machine (Sees log) (start a) evs) (hsmooth : Along machine Smooth (start a) evs) :
    ((start a).run machine evs).GapFree machine log :=
  ((Follows.start ha).run hsees hsmooth).gapFree

theorem GapFree.sm_of_plain (h : p.GapFree machine log)
    (hplain : ∀ i, (log.entry i).configOp = none ∧ (log.entry i).command.dedup = none) :
    p.now.sm = p.base.sm ++ log.between p.base.localLastApplied p.now.localLastApplied := by
  obtain ⟨ranges, hentries, hsm, -⟩ := h.reports
  have hgiven : (reportsOf machine p.base ranges).filterMap Report.given =
      (reportsOf machine p.base ranges).map Report.entry := by
    rw [← List.filterMap_eq_map']
    apply List.filterMap_congr
    intro r hr
    have hmem := List.mem_map_of_mem (f := Report.entry) hr
    rw [hentries] at hmem
    obtain ⟨i, -, hi⟩ := List.mem_map.mp hmem
    exact Report.given_of_plain (reportsOf_genuine machine p.base ranges r hr) (hi ▸ (hplain i).1)
      (hi ▸ (hplain i).2)
  rw [hsm, hgiven, hentries]

def commands : CommittedLog Nat := ⟨fun i => ⟨i, 1, .user [1]⟩, fun _ => rfl⟩

def firstTwo : Snapshot Nat := ⟨⟨2, 1⟩, [], none, none, commands.between 0 2⟩

def onlyThird : Store Nat := ⟨⟨1, none⟩, [commands.entry 3], some firstTwo, 3⟩

theorem sees_onlyThird (a : ApplyLoop Nat) (faults : ReadFaults) :
    a.Sees commands (.commit onlyThird faults) :=
  sees_between (show onlyThird.entries = commands.between 2 3 from rfl) a faults

/-- A snapshot is restored, and the entry after it is applied. -/
theorem gapFree_restored :
    ((start idle).run (fun _ _ => ⟨[], false⟩)
      [.install firstTwo, .notify 3, .restore true, .commit onlyThird .healthy]).GapFree
        (fun _ _ => ⟨[], false⟩) commands := by
  refine gapFree_run rfl ⟨trivial, trivial, trivial, sees_onlyThird _ _, trivial⟩
    ⟨trivial, trivial, fun _ => rfl, ?_, trivial⟩
  intro commitIdx hc
  obtain rfl : 3 = commitIdx := Option.some.inj hc
  exact .inl (by decide +kernel)

/-- The commit index is taken up before the snapshot that made the first two entries
disappear: they are passed over and the snapshot is dropped. -/
theorem not_gapFree_race :
    (Along (fun _ _ => ⟨[], false⟩) (Sees commands) (start idle)
        [.install firstTwo, .notify 3, .commit onlyThird .healthy, .restore true] ∧
      ¬ ((start idle).run (fun _ _ => ⟨[], false⟩)
        [.install firstTwo, .notify 3, .commit onlyThird .healthy, .restore true]).GapFree
          (fun _ _ => ⟨[], false⟩) commands) ∧
    (Along (fun _ _ => ⟨[], false⟩) (Sees commands) (start idle)
        [.install firstTwo, .restore true, .notify 3, .commit onlyThird ⟨true, fun _ => true⟩] ∧
      ¬ ((start idle).run (fun _ _ => ⟨[], false⟩)
        [.install firstTwo, .restore true, .notify 3, .commit onlyThird ⟨true, fun _ => true⟩]).GapFree
          (fun _ _ => ⟨[], false⟩) commands) ∧
    (Along (fun _ _ => ⟨[], false⟩) (Sees commands) (start idle) [.install firstTwo, .restore false] ∧
      ¬ ((start idle).run (fun _ _ => ⟨[], false⟩) [.install firstTwo, .restore false]).GapFree
          (fun _ _ => ⟨[], false⟩) commands) := by
  have hplain (i : Nat) : (commands.entry i).configOp = none ∧
      (commands.entry i).command.dedup = none := ⟨rfl, rfl⟩
  refine ⟨⟨⟨trivial, trivial, sees_onlyThird _ _, trivial, trivial⟩, fun h => ?_⟩,
    ⟨⟨trivial, trivial, trivial, sees_onlyThird _ _, trivial⟩, fun h => ?_⟩,
    ⟨trivial, trivial, trivial⟩, fun h => ?_⟩
  · exact absurd (h.sm_of_plain hplain) (by decide +kernel)
  · exact absurd (h.sm_of_plain hplain) (by decide +kernel)
  · exact absurd (h.sm_of_plain hplain) (by decide +kernel)

end Progress

end Raft
