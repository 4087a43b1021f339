import Raft.Replication.Follower
import Raft.System.Basic

/-!
# Restarting in the middle of an installation

A received snapshot is saved past the queue of the writer, and the log is cut when the event
loop hears about it, by a write that is queued.  A crash in between leaves the new snapshot
beside the old log, or a part of it, and startup trusts both.

What startup finds is of use exactly when the log is empty, or connects to the snapshot: it
starts no later than right behind it, reaches its index, and agrees with it there.
-/

namespace Raft

variable {ι : Type}

/-- Entries that continue a snapshot: they reach its index and agree with it there. -/
def Connects (position : SnapshotMeta) (es : List (LogEntry ι)) : Prop :=
  es ≠ [] → (∃ e ∈ es, e.index ≤ position.lastIncludedIndex + 1) ∧
    (∃ e ∈ es, position.lastIncludedIndex ≤ e.index) ∧
    ∀ e ∈ es, e.index = position.lastIncludedIndex → e.term = position.lastIncludedTerm

theorem Connects.nil (position : SnapshotMeta) : Connects position ([] : List (LogEntry ι)) :=
  fun h => absurd rfl h

namespace RaftLog

/-! ## One entry from the leader -/

variable {e : LogEntry ι}

section Accept

variable [Sized ι]

/-- What a follower's log makes of one entry: it has it, or gives way to it, or lacks it. -/
def accept (rl : RaftLog ι) (e : LogEntry ι) : Option (RaftLog ι) :=
  match rl.termAt e.index with
  | none => some (rl.append [e]).2
  | some t =>
    if t = e.term then some rl
    else (rl.truncateSuffix e.index).map fun rl => (rl.append [e]).2

theorem accept_of_mergeEntries [DecidableEq ι] {n m : Node ι} {w : Nat} (hfol : n.state ≠ .leader)
    (h : n.mergeEntries [e] = .ok (w, m)) : n.log.accept e = some m.log := by
  unfold Node.mergeEntries at h
  unfold accept
  cases ht : n.log.termAt e.index with
  | none =>
    rw [ht] at h
    obtain rfl : (n.appendEntries [e]).2 = m := congrArg Prod.snd (Except.ok.inj h)
    rfl
  | some t =>
    rw [ht] at h
    dsimp only at h ⊢
    split_ifs at h ⊢ with heq
    · obtain rfl : n = m := congrArg Prod.snd (Except.ok.inj h)
      rfl
    · cases hcut : n.log.truncateSuffix e.index with
      | none =>
        rw [Node.truncateConflict, hcut] at h
        cases h
      | some log =>
        obtain ⟨mem, ok, htr⟩ := Node.truncateConflict_of_some hfol hcut
        rw [htr] at h
        cases ok with
        | false => cases h
        | true =>
          obtain rfl : (Node.appendEntries _ [e]).2 = m := congrArg Prod.snd (Except.ok.inj h)
          rfl

variable {rl : RaftLog ι} {e : LogEntry ι}

theorem append_one (h : rl.Wf) (he : e.index = rl.lastLogIndex + 1) :
    (∃ f, Contiguous f (rl.append [e]).2.contents) ∧ e ∈ (rl.append [e]).2.contents := by
  obtain ⟨hwf, hc⟩ := append_spec h (List.cons_ne_nil e []) (he ▸ Contiguous.singleton e)
  refine ⟨⟨_, hwf.contiguous⟩, ?_⟩
  rw [hc]
  exact List.mem_append_right _ (List.mem_singleton_self e)

end Accept

/-! ## Logs that resume -/

/-- The entries are contiguous, reach the snapshot's index, and leave no hole behind it. -/
structure Resumes [Sized ι] (rl : RaftLog ι) : Prop where
  contiguous : ∃ f, Contiguous f rl.contents
  agrees : ∀ e ∈ rl.contents, e.index = rl.snapMeta.lastIncludedIndex →
    e.term = rl.snapMeta.lastIncludedTerm
  reaches : rl.snapMeta.lastIncludedIndex ≤ rl.lastLogIndex
  continues : ∀ e : LogEntry ι, e.index = rl.snapMeta.lastIncludedIndex + 1 →
    ∃ rl', rl.accept e = some rl' ∧ (∃ f, Contiguous f rl'.contents) ∧
      ∃ e' ∈ rl'.contents, e'.index = e.index ∧ e'.term = e.term

section Resumes

variable [Sized ι] {rl : RaftLog ι}

omit [Sized ι] in
theorem Wf.mem_bounds (h : rl.Wf) (he : e ∈ rl.contents) :
    rl.first ≤ e.index ∧ e.index ≤ rl.last := by
  obtain ⟨hlo, hhi, -⟩ := h.contiguous.index_of_mem he
  have := h.last_add_one (List.ne_nil_of_mem he)
  omega

theorem accept_of_connects (h : rl.Wf) (hc : Connects rl.snapMeta rl.contents)
    (he : e.index = rl.snapMeta.lastIncludedIndex + 1) :
    ∃ rl', rl.accept e = some rl' ∧ (∃ f, Contiguous f rl'.contents) ∧
      ∃ e' ∈ rl'.contents, e'.index = e.index ∧ e'.term = e.term := by
  unfold accept
  -- an entry that the log lacks comes right behind its end
  have lacking : rl.lastLogIndex = rl.snapMeta.lastIncludedIndex →
      ∃ rl', (some (rl.append [e]).2) = some rl' ∧ (∃ f, Contiguous f rl'.contents) ∧
        ∃ e' ∈ rl'.contents, e'.index = e.index ∧ e'.term = e.term := by
    intro hlast
    obtain ⟨hcont, hmem⟩ := append_one h (he.trans (by rw [hlast]))
    exact ⟨_, rfl, hcont, e, hmem, rfl, rfl⟩
  rcases eq_or_ne rl.contents [] with hnil | hne
  · have hfirst := h.first_eq_zero.mpr hnil
    have hlast := h.last_eq_zero hnil
    have hnone : rl.termAt e.index = none := by
      rw [termAt, if_neg (by omega), if_neg (by omega), if_pos (.inl hfirst)]
    rw [hnone]
    exact lacking (by rw [lastLogIndex, if_neg (by omega)])
  · obtain ⟨⟨e₁, he₁, hlow⟩, ⟨e₂, he₂, hhigh⟩, -⟩ := hc hne
    have hb₁ := h.mem_bounds he₁
    have hb₂ := h.mem_bounds he₂
    have hfirst := h.first_pos hne
    have hlastLog : rl.lastLogIndex = rl.last := by
      rw [lastLogIndex, if_pos (h.last_pos hne)]
    by_cases hend : rl.last = rl.snapMeta.lastIncludedIndex
    · have hnone : rl.termAt e.index = none := by
        rw [termAt, if_neg (by omega), if_neg (by omega), if_pos (.inr (.inr (by omega)))]
      rw [hnone]
      exact lacking (hlastLog.trans hend)
    · have hla := h.last_add_one hne
      have hlookup := h.termAt_eq (i := e.index) (by omega) (by omega) hne (by omega)
      obtain ⟨e', he'⟩ : ∃ e', rl.contents[e.index - rl.first]? = some e' :=
        ⟨_, List.getElem?_eq_getElem (by omega)⟩
      have hidx := h.contiguous _ e' he'
      rw [he', Option.map_some] at hlookup
      rw [hlookup]
      dsimp only
      split_ifs with hterm
      · exact ⟨rl, rfl, ⟨_, h.contiguous⟩, e', List.mem_of_getElem? he', by omega, hterm⟩
      · -- the log gives way and then ends right before the entry
        obtain ⟨cut, hcut, hspec⟩ := exists_suffixCut (i := e.index) h (by omega) (by omega) (by omega)
        obtain ⟨hwf, -⟩ := hspec.spec h (by omega) (by omega) (by omega)
        have hend : e.index = cut.lastLogIndex + 1 := by
          rw [lastLogIndex, hspec.last, hspec.snapMeta]
          split_ifs <;> omega
        obtain ⟨hcont, hmem⟩ := append_one hwf hend
        rw [hcut]
        exact ⟨_, rfl, hcont, e, hmem, rfl, rfl⟩

/-- **A log resumes exactly when its entries connect to its snapshot.** -/
theorem resumes_iff (h : rl.Wf) : rl.Resumes ↔ Connects rl.snapMeta rl.contents := by
  constructor
  · intro hr hne
    have hlastLog : rl.lastLogIndex = rl.last := by
      rw [lastLogIndex, if_pos (h.last_pos hne)]
    have hla := h.last_add_one hne
    obtain ⟨e₁, e₂, he₁, he₂, hidx₁, hidx₂⟩ := h.contiguous.ends hne
    have hreach := hr.reaches
    refine ⟨⟨e₁, List.mem_of_head? he₁, ?_⟩, ⟨e₂, List.mem_of_getLast? he₂, by omega⟩, hr.agrees⟩
    -- a log that starts too late would put the leader's next entry behind its end
    by_contra hlate
    obtain ⟨rl', hrl', ⟨f, hf⟩, -⟩ :=
      hr.continues ⟨rl.snapMeta.lastIncludedIndex + 1, 0, .noop⟩ rfl
    have hnone : rl.termAt (rl.snapMeta.lastIncludedIndex + 1) = none := by
      rw [termAt, if_neg (by omega), if_neg (by omega), if_pos (.inr (.inl (by omega)))]
    rw [accept, hnone] at hrl'
    cases hrl'
    rw [contents_append h (List.cons_ne_nil _ _)] at hf
    have hfirst' : f = rl.first := by
      have := (hf.left).head?_index he₁
      omega
    have := hf.index_concat
    dsimp only at this
    omega
  · intro hc
    refine ⟨⟨_, h.contiguous⟩, ?_, ?_, fun e he => accept_of_connects h hc he⟩
    · intro e he hidx
      exact (hc (List.ne_nil_of_mem he)).2.2 e he hidx
    · rcases eq_or_ne rl.contents [] with hnil | hne
      · have := h.last_eq_zero hnil
        rw [lastLogIndex, if_neg (by omega)]
      · obtain ⟨-, ⟨e, he, hle⟩, -⟩ := hc hne
        have := h.mem_bounds he
        rw [lastLogIndex, if_pos (h.last_pos hne)]
        omega

theorem resumes_of_new {s : Store ι} {batch commits : Bool} (hs : s.Wf)
    (hnew : new s batch commits = some rl) : rl.Resumes ↔ Connects (snapPosition s) s.entries := by
  have hfresh := Fresh.of_new hs hnew
  rw [resumes_iff hfresh.wf, hfresh.snapMeta, hfresh.contents]

end Resumes

/-! ## The stages of an installation -/

section Install

variable [Sized ι] {rl rl' : RaftLog ι} {position : SnapshotMeta}

theorem stage_of_installSnapshot (h : rl.Wf) (hinst : rl.installSnapshot position = some rl') {k : Nat}
    (hk : k < rl'.w.queue.length) : rl'.stage k = rl.stage k := by
  rcases installSnapshot_queues h hinst with hw | ⟨op, hw⟩
  · rw [stage, stage, hw]
  · rw [hw, queue_enqueue h.running.1, List.length_append, List.length_singleton] at hk
    rw [stage_of_enqueue h.running.1 hw, if_pos (by omega)]

theorem storage_of_installSnapshot (h : rl.Wf) (hinst : rl.installSnapshot position = some rl') :
    rl'.w.storage = rl.w.storage := by
  rcases installSnapshot_queues h hinst with hw | ⟨op, hw⟩
  · rw [hw]
  · exact storage_of_enqueue h.running.1 hw

omit [Sized ι] in
theorem connects_survivors (h : rl.Wf) (hpos : 0 < position.lastIncludedIndex)
    (hbase : rl.first ≤ rl.snapMeta.lastIncludedIndex + 1) :
    Connects position (rl.survivors position) := by
  unfold survivors
  split_ifs with hagree
  · intro hne
    have hfirst : rl.first ≤ position.lastIncludedIndex + 1 := by
      unfold termAt at hagree
      split_ifs at hagree <;> omega
    have hc := h.contiguous.drop (position.lastIncludedIndex + 1 - rl.first)
    obtain ⟨e, he⟩ : ∃ e, (rl.contents.drop (position.lastIncludedIndex + 1 - rl.first)).head? =
      some e := ⟨_, List.head?_eq_some_head hne⟩
    have hidx := hc.head?_index he
    refine ⟨⟨e, List.mem_of_head? he, by omega⟩, ⟨e, List.mem_of_head? he, by omega⟩, ?_⟩
    intro e' he' heq
    have := (hc.index_of_mem he').1
    omega
  · exact Connects.nil position

end Install

end RaftLog

/-- How far the installation of a snapshot has come. -/
inductive InstallPoint
  | receiving
  | saved
  | adopted
  deriving DecidableEq, Repr

namespace InstallPoint

variable [Sized ι]

def log (rl : RaftLog ι) (snap : Snapshot ι) : InstallPoint → Option (RaftLog ι)
  | receiving => some rl
  | saved => some (rl.saveSnapshot snap)
  | adopted => (rl.saveSnapshot snap).installSnapshot snap.position

def restart (rl : RaftLog ι) (snap : Snapshot ι) (k : Nat) (batch commits : Bool)
    (point : InstallPoint) : Option (RaftLog ι) :=
  (point.log rl snap).bind fun rl => (rl.survives k).bind fun s => RaftLog.new s batch commits

/-- The snapshot has not been saved yet, or the log has been cut, or what is left of it connects to
the snapshot. -/
def Connected (rl : RaftLog ι) (snap : Snapshot ι) (k : Nat) : InstallPoint → Prop
  | receiving => True
  | saved => Connects snap.position (rl.kept k)
  | adopted => (∃ rl', adopted.log rl snap = some rl' ∧ rl'.w.queue.length ≤ k) ∨
      Connects snap.position (rl.kept k)

variable {rl : RaftLog ι}

theorem exists_restart (batch commits : Bool) (h : rl.Wf) (k : Nat) :
    ∃ log, ((rl.survives k).bind fun s => RaftLog.new s batch commits) = some log ∧
      (log.Resumes ↔ Connects (RaftLog.snapPosition rl.w.storage) (rl.kept k)) := by
  obtain ⟨s, hs, hwf⟩ := h.stages k
  have hsurv : rl.survives k = some s := by
    rw [RaftLog.survives, h.running.2]
    exact hs
  have hsnap : RaftLog.snapPosition s = RaftLog.snapPosition rl.w.storage := by
    rw [RaftLog.snapPosition, RaftLog.snapPosition, StorageWriter.execAll_snap hs]
  obtain ⟨log, hlog, -⟩ := RaftLog.exists_new hwf batch commits
  rw [hsurv, RaftLog.kept, hs, ← hsnap]
  exact ⟨log, hlog, RaftLog.resumes_of_new hwf hlog⟩

/-- **Which crashes an installation survives**: those before the snapshot is saved, after the
log is cut, or with an old log that connects to the snapshot. -/
theorem resumes_iff_connected (batch commits : Bool) (snap : Snapshot ι) (hwf : rl.Wf)
    (hbase : rl.first ≤ rl.snapMeta.lastIncludedIndex + 1)
    (hprior : ∀ k, Connects (RaftLog.snapPosition rl.w.storage) (rl.kept k))
    (hpos : 0 < snap.position.lastIncludedIndex) (k : Nat) (point : InstallPoint) :
    ∃ log, point.restart rl snap k batch commits = some log ∧
      (log.Resumes ↔ point.Connected rl snap k) := by
  obtain ⟨hsaved, -⟩ := hwf.saveSnapshot snap
  -- saving past the queue changes the snapshot and nothing else at every stage
  have hkept : (rl.saveSnapshot snap).kept k = rl.kept k := by
    obtain ⟨s, hs, -⟩ := hwf.stages k
    have hstage : (rl.saveSnapshot snap).stage k = (rl.stage k).map (·.saveSnapshot snap) :=
      StorageWriter.execAll_saveSnapshot _ _ _ _
    rw [RaftLog.kept, RaftLog.kept, hstage, hs]
    rfl
  cases point with
  | receiving =>
    obtain ⟨log, hlog, hres⟩ := exists_restart batch commits hwf k
    exact ⟨log, hlog, hres.trans (iff_of_true (hprior k) trivial)⟩
  | saved =>
    obtain ⟨log, hlog, hres⟩ := exists_restart batch commits hsaved k
    rw [hkept] at hres
    exact ⟨log, hlog, hres⟩
  | adopted =>
    obtain ⟨cut, hinst, hcut, hleft, -, -⟩ := RaftLog.installSnapshot_spec hsaved snap.position
    obtain ⟨log, hlog, hres⟩ := exists_restart batch commits hcut k
    rw [RaftLog.storage_of_installSnapshot hsaved hinst] at hres
    refine ⟨log, ?_, hres.trans ?_⟩
    · rw [restart, InstallPoint.log, hinst]
      exact hlog
    · by_cases hk : k < cut.w.queue.length
      · have hsame : cut.kept k = rl.kept k := by
          rw [← hkept, RaftLog.kept, RaftLog.kept, RaftLog.stage_of_installSnapshot hsaved hinst hk]
        rw [hsame]
        refine ⟨.inr, ?_⟩
        rintro (⟨cut', hcut', hlen⟩ | hc)
        · cases hinst.symm.trans hcut'
          omega
        · exact hc
      · have hall : cut.kept k = cut.contents := by
          rw [RaftLog.kept, RaftLog.stage_of_length_le cut (by omega)]
          rfl
        rw [hall, hleft]
        exact iff_of_true (RaftLog.connects_survivors hsaved hpos hbase)
          (.inl ⟨cut, hinst, by omega⟩)

def shortStore : Store Nat :=
  ⟨⟨1, none⟩, [⟨1, 1, .user [1]⟩, ⟨2, 1, .user [2]⟩], none, 0⟩

def shortLog : RaftLog Nat := (RaftLog.new shortStore false false).get rfl

def ahead : Snapshot Nat := ⟨⟨5, 2⟩, [], none, none, []⟩

/-- Once the cut has been executed the node goes on behind the snapshot. -/
theorem resumes_behind_cut :
    ∃ log, adopted.restart shortLog ahead 1 false false = some log ∧ log.Resumes := by
  have hs : shortStore.Wf :=
    ⟨(Contiguous.singleton ⟨1, 1, .user [1]⟩).append (Contiguous.singleton ⟨2, 1, .user [2]⟩),
      fun _ => Nat.one_pos⟩
  have hfresh : RaftLog.Fresh shortStore shortLog := .of_new hs (Option.some_get _).symm
  have hprior : ∀ k, Connects (RaftLog.snapPosition shortLog.w.storage) (shortLog.kept k) := by
    intro k
    have hstage : shortLog.kept k = shortStore.entries := by
      rw [RaftLog.kept, RaftLog.stage, hfresh.queue, List.take_nil]
      rfl
    rw [hstage]
    unfold Connects
    decide
  obtain ⟨log, hlog, hres⟩ :=
    resumes_iff_connected false false ahead hfresh.wf (by decide) hprior (by decide) 1 adopted
  exact ⟨log, hlog, hres.mpr (.inl ⟨_, rfl, by decide⟩)⟩

/-- A crash leaves a log up to index 2 under a snapshot up to 5: entries 3 to 5 will be
missing. -/
theorem not_resumes_before_cut :
    ((saved.restart shortLog ahead 0 false false).map fun log =>
        (log.snapMeta.lastIncludedIndex, log.lastLogIndex, log.termAt 5)) =
      some (5, 2, some 2) ∧
    ((saved.restart shortLog ahead 0 false false).bind fun log =>
        (log.accept ⟨6, 2, .user [6]⟩).map fun log => log.contents.map (·.index)) =
      some [1, 2, 6] := by
  decide +kernel

end InstallPoint

end Raft
