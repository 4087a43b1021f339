import Raft.Snapshot.Contents
import Raft.System.Numbering
import Raft.Turn.LogChanges

/-!
# The boundary between snapshot and log

Local snapshots are written and received ones are installed by goroutines of their own, past
the queue of the writer, and the event loop cuts its log according to the results it hears
about.  The boundary is sound when the snapshot in storage and the position the event loop
keeps only move forward, and the stored log starts no later than right behind the snapshot.
Nothing orders the goroutines among each other.
-/

namespace Raft

variable {ι : Type} {k : Nat} {snap : Snapshot ι}

def Store.snapIndex (s : Store ι) : Nat := (RaftLog.snapPosition s).lastIncludedIndex

/-- The stored log starts no later than right behind the index. -/
def Store.Adjoins (s : Store ι) (index : Nat) : Prop := s.entries ≠ [] → s.firstIndex ≤ index + 1

/-! ## Stages of the queue -/

namespace RaftLog

def Adjoined (index : Nat) (rl : RaftLog ι) : Prop := ∀ k s, rl.stage k = some s → s.Adjoins index

variable {position : SnapshotMeta} {s : Store ι} {rl rl' : RaftLog ι}

namespace Adjoined

variable {index : Nat} {rl rl' : RaftLog ι}

section

variable (h : rl.Adjoined index)

include h

theorem mono {index' : Nat} (hle : index ≤ index') : rl.Adjoined index' := by
  intro k s hs hne
  have := h k s hs hne
  omega

theorem congr (hstage : ∀ k, rl'.stage k = rl.stage k) : rl'.Adjoined index :=
  AllStages.congr (P := (·.Adjoins index)) h hstage

theorem storage : rl.w.storage.Adjoins index :=
  AllStages.storage (P := (·.Adjoins index)) h

theorem first_le (hwf : rl.Wf) (hne : rl.contents ≠ []) : rl.first ≤ index + 1 := by
  obtain ⟨s, hs, -, hcont⟩ := hwf.settles
  rw [hcont] at hne
  have hfirst := AllStages.settled (P := (·.Adjoins index)) h hs hne
  rwa [Store.firstIndex_eq (hcont ▸ hwf.contiguous) hne] at hfirst

theorem enqueue {op : WriteOp ι} (hopen : rl.w.closed = false) (hw : rl'.w = rl.w.enqueue op)
    (hwf : rl'.Wf) (hfirst : rl'.contents ≠ [] → rl'.first ≤ index + 1) : rl'.Adjoined index := by
  refine AllStages.enqueue (P := (·.Adjoins index)) h hopen hw fun s hs hne => ?_
  have hcont := contents_of_settled hs
  have hc := hwf.contiguous
  rw [hcont] at hc hfirst
  rw [Store.firstIndex_eq hc hne]
  exact hfirst hne

theorem enqueue_frame {kind : WriteKind ι} (hwf : rl.Wf)
    (hwf' : (rl.enqueue kind).Wf ∧ (rl.enqueue kind).contents = rl.contents) :
    (rl.enqueue kind).Adjoined index := by
  refine h.enqueue hwf.running.1 rfl hwf'.1 fun hne => ?_
  rw [hwf'.2] at hne
  exact h.first_le hwf hne

theorem execute (hwf : rl.Wf) : (rl.execute none).Adjoined index :=
  AllStages.execute (P := (·.Adjoins index)) h hwf

theorem saveSnapshot (snap : Snapshot ι) : (rl.saveSnapshot snap).Adjoined index := by
  intro k s hs
  have hs' : (rl.stage k).map (·.saveSnapshot snap) = some s :=
    (StorageWriter.execAll_saveSnapshot _ _ _ _).symm.trans hs
  obtain ⟨s₀, hs₀, rfl⟩ := Option.map_eq_some_iff.mp hs'
  exact h k s₀ hs₀

end

theorem of_fresh (h : Fresh s rl) (hs : s.Adjoins index) : rl.Adjoined index :=
  AllStages.of_fresh (P := (·.Adjoins index)) h hs

theorem suffixCut {i : Nat} (h : rl.Adjoined index) (hwf : rl.Wf) (hcut : SuffixCut rl i rl')
    (hf : rl.first ≠ 0) (hlo : rl.first ≤ i) (hhi : i ≤ rl.last + 1) : rl'.Adjoined index := by
  refine h.enqueue hwf.running.1 hcut.w (hcut.spec hwf hf hlo hhi).1 fun _ => ?_
  rw [hcut.first]
  split_ifs
  · omega
  · exact h.first_le hwf (hwf.ne_nil_of_first hf)

variable [Sized ι]

theorem append {es : List (LogEntry ι)} (h : rl.Adjoined index) (hwf : rl.Wf)
    (hbase : rl.snapMeta.lastIncludedIndex ≤ index) (hne : es ≠ [])
    (hc : Contiguous (rl.lastLogIndex + 1) es) : (rl.append es).2.Adjoined index := by
  obtain ⟨e, e', he, he', hhead, -⟩ := hc.ends hne
  have hwf' := append_spec hwf hne hc
  have hqueued : (rl.append es).2.w =
      rl.w.enqueue ⟨rl.nextSeq + 1, .append es, e'.index⟩ := by rw [append_eq he he']
  refine h.enqueue hwf.running.1 hqueued hwf'.1 fun _ => ?_
  rw [append_eq he he']
  dsimp only
  split_ifs with hz
  · have hlast := hwf.last_eq_zero (hwf.first_eq_zero.mp hz)
    rw [lastLogIndex, if_neg (by omega)] at hhead
    omega
  · exact h.first_le hwf (hwf.ne_nil_of_first hz)

theorem truncatePrefix {i : Nat} (h : rl.Adjoined index) (hwf : rl.Wf) (hi : i ≤ index + 1) :
    (rl.truncatePrefix i).Adjoined index := by
  by_cases hnop : rl.first ≠ 0 ∧ i ≤ rl.first
  · rwa [truncatePrefix_of_le hnop]
  · have hcut := prefixCut hnop
    refine h.enqueue hwf.running.1 hcut.w (hcut.spec hwf hnop).1 fun _ => ?_
    rw [hcut.first]
    split_ifs <;> omega

theorem installSnapshot (h : rl.Adjoined index) (hwf : rl.Wf)
    (hle : position.lastIncludedIndex ≤ index) (hrl' : rl.installSnapshot position = some rl') :
    rl'.Adjoined index := by
  obtain ⟨kept, hkept, rfl⟩ := Option.map_eq_some_iff.mp hrl'
  have hadj : kept.Adjoined index := by
    split_ifs at hkept with hagree hfirst
    · cases hkept
      exact h.truncatePrefix hwf (by omega)
    · have hlast := hwf.first_le_last (hwf.ne_nil_of_first hfirst)
      obtain ⟨rl₁, hrl₁, hcut⟩ := exists_suffixCut hwf hfirst le_rfl (by omega)
      cases hrl₁.symm.trans hkept
      exact h.suffixCut hwf hcut hfirst le_rfl (by omega)
    · cases hkept
      exact h
  dsimp only
  split_ifs <;> exact hadj.congr fun _ => rfl

end Adjoined

/-- The log is well formed, adjoins the snapshot in storage at every point of the queue, and its
base is no newer. -/
structure Bounded (rl : RaftLog ι) : Prop where
  wf : rl.Wf
  adjoined : rl.Adjoined rl.w.storage.snapIndex
  base : rl.snapMeta.lastIncludedIndex ≤ rl.w.storage.snapIndex

theorem snapIndex_congr {s' : Store ι} (h : s'.snap = s.snap) : s'.snapIndex = s.snapIndex := by
  unfold Store.snapIndex snapPosition
  rw [h]

theorem snapIndex_of_stage (h : rl.stage k = some s) : s.snapIndex = rl.w.storage.snapIndex :=
  snapIndex_congr (StorageWriter.execAll_snap h)

structure SameBoundary (rl rl' : RaftLog ι) : Prop where
  snapMeta : rl'.snapMeta = rl.snapMeta
  stored : rl'.w.storage.snapIndex = rl.w.storage.snapIndex

theorem SameBoundary.trans {rl'' : RaftLog ι} (h : rl.SameBoundary rl') (h' : rl'.SameBoundary rl'') :
    rl.SameBoundary rl'' :=
  ⟨h'.snapMeta.trans h.snapMeta, h'.stored.trans h.stored⟩

theorem Bounded.of_same (h : rl.Bounded) (hsame : rl.SameBoundary rl') (hwf : rl'.Wf)
    (hadj : rl'.Adjoined rl.w.storage.snapIndex) : rl'.Bounded :=
  ⟨hwf, hsame.stored ▸ hadj, by rw [hsame.snapMeta, hsame.stored]; exact h.base⟩

theorem Extends.storage (h : rl.Extends rl') (hopen : rl.w.closed = false) :
    rl'.w.storage = rl.w.storage := by
  obtain ⟨ops, hops, -⟩ := h hopen
  rw [hops.w]

theorem Bounded.call [Sized ι] {c : LogCall ι} (h : rl.Bounded) (hord : c.Ordinary)
    (hmade : c.Made rl) : (c.step rl).Bounded ∧ rl.SameBoundary (c.step rl) := by
  have hopen := h.wf.running.1
  -- Enough to know about the log after the call.
  have of_same : ∀ rl', rl'.Wf → rl'.Adjoined rl.w.storage.snapIndex → rl'.snapMeta = rl.snapMeta →
      rl'.w.storage.snapIndex = rl.w.storage.snapIndex → rl'.Bounded ∧ rl.SameBoundary rl' :=
    fun rl' hwf hadj hmeta hstored =>
      ⟨h.of_same ⟨hmeta, hstored⟩ hwf hadj, ⟨hmeta, hstored⟩⟩
  cases c with
  | append es =>
    exact of_same _ (append_spec h.wf hmade.1 hmade.2).1
      (h.adjoined.append h.wf h.base hmade.1 hmade.2) append_snapMeta
      (congrArg Store.snapIndex ((Extends.append rl es).storage hopen))
  | truncateSuffix i =>
    obtain ⟨rl', hrl', hcut⟩ := exists_suffixCut h.wf hmade.1 hmade.2.1 hmade.2.2
    rw [LogCall.step, hrl']
    exact of_same _ (hcut.spec h.wf hmade.1 hmade.2.1 hmade.2.2).1
      (h.adjoined.suffixCut h.wf hcut hmade.1 hmade.2.1 hmade.2.2) hcut.snapMeta
      (congrArg Store.snapIndex (storage_of_enqueue hopen hcut.w))
  | hardState hs =>
    have hwf := h.wf.enqueue_hardState hs
    exact of_same _ hwf.1 (h.adjoined.enqueue_frame h.wf hwf) rfl
      (congrArg Store.snapIndex (storage_of_enqueue hopen rfl))
  | commitIndex i =>
    have hwf := h.wf.enqueue_commitIndex i
    exact of_same _ hwf.1 (h.adjoined.enqueue_frame h.wf hwf) rfl
      (congrArg Store.snapIndex (storage_of_enqueue hopen rfl))
  | execute =>
    obtain ⟨s, hs, heq⟩ := h.wf.exists_execute
    have hstorage : (rl.execute none).w.storage = s := congrArg StorageWriter.storage heq
    refine of_same _ h.wf.execute.1 (h.adjoined.execute h.wf) rfl ?_
    rw [LogCall.step, hstorage]
    exact snapIndex_of_stage hs
  | complete =>
    rw [LogCall.step]
    unfold RaftLog.complete
    split
    · exact of_same _ h.wf h.adjoined rfl rfl
    · rename_i d ds _
      have hwf : ({ rl with w := { rl.w with done := ds } } : RaftLog ι).Wf :=
        h.wf.of_contents_eq h.wf.running h.wf.stages rfl rfl rfl rfl
      refine of_same _ (hwf.stabilize d).1 (h.adjoined.congr fun k => ?_) ?_ ?_
      all_goals
        unfold stabilize
        split_ifs <;> rfl
  | truncatePrefix i | localSnapshot position trailing | installSnapshot position
  | saveSnapshot snap => exact hord.elim

theorem Bounded.save (h : rl.Bounded)
    (hle : rl.w.storage.snapIndex ≤ snap.position.lastIncludedIndex) :
    (rl.saveSnapshot snap).Bounded :=
  ⟨(h.wf.saveSnapshot snap).1, (h.adjoined.mono hle).saveSnapshot snap, h.base.trans hle⟩

theorem keepFrom_le (index trailing : Nat) : keepFrom index trailing ≤ index + 1 := by
  unfold keepFrom
  split_ifs <;> omega

theorem Bounded.compact [Sized ι] (h : rl.Bounded)
    (hle : position.lastIncludedIndex ≤ rl.w.storage.snapIndex) (trailing : Nat) :
    (rl.compact position trailing).Bounded := by
  have hkeep := keepFrom_le position.lastIncludedIndex trailing
  have hstorage := (Extends.compact rl position trailing).storage h.wf.running.1
  refine ⟨(truncatePrefix_spec h.wf _).1.congr rfl rfl rfl rfl, ?_, ?_⟩
  · rw [hstorage]
    exact (h.adjoined.truncatePrefix h.wf (by omega)).congr fun _ => rfl
  · rw [hstorage]
    exact hle

theorem Bounded.install [Sized ι] (h : rl.Bounded)
    (hle : position.lastIncludedIndex ≤ rl.w.storage.snapIndex)
    (hrl' : rl.installSnapshot position = some rl') :
    rl'.Bounded ∧ rl'.snapMeta = position ∧ rl'.w.storage = rl.w.storage := by
  have hstorage := (Extends.installSnapshot hrl').storage h.wf.running.1
  obtain ⟨rl₁, hrl₁, hwf, -, hmeta, -⟩ := installSnapshot_spec h.wf position
  cases hrl₁.symm.trans hrl'
  refine ⟨⟨hwf, ?_, ?_⟩, hmeta, hstorage⟩
  · rw [hstorage]
    exact h.adjoined.installSnapshot h.wf hle hrl'
  · rw [hstorage, hmeta]
    exact hle

theorem Bounded.of_new (hs : s.Wf) (hadj : s.Adjoins s.snapIndex) {batch commits : Bool}
    (h : RaftLog.new s batch commits = some rl) :
    rl.Bounded ∧ rl.w.storage = s ∧ rl.snapMeta.lastIncludedIndex = s.snapIndex := by
  obtain ⟨rl', hrl', hfresh⟩ := exists_new hs batch commits
  obtain rfl := Option.some.inj (hrl'.symm.trans h)
  have hindex : rl'.snapMeta.lastIncludedIndex = s.snapIndex :=
    congrArg SnapshotMeta.lastIncludedIndex hfresh.snapMeta
  refine ⟨⟨hfresh.wf, ?_, ?_⟩, hfresh.storage, hindex⟩
  · rw [hfresh.storage]
    exact .of_fresh hfresh hadj
  · rw [hfresh.storage, hindex]

end RaftLog

/-! ## What a node keeps about its snapshots -/

namespace Side

/-- What is noted and captured has been applied, and successes are about snapshots in storage. -/
structure Bounded (s : Side ι) (base stored : Nat) : Prop where
  base : base ≤ s.lastApplied
  trigger : ∀ t, s.apply.snapshotTrigger = some t → t.position.lastIncludedIndex ≤ s.lastApplied
  writing : ∀ p ∈ s.writing, p.1.position.lastIncludedIndex ≤ s.lastApplied
  results : ∀ r ∈ s.written, r.trigger.position.lastIncludedIndex ≤ s.lastApplied ∧
    (r.err = false → r.trigger.position.lastIncludedIndex ≤ stored)
  installed : ∀ p ∈ s.installed, p.2 = true → p.1.position.lastIncludedIndex ≤ stored

variable {s s' : Side ι} {base base' stored stored' : Nat}

section

variable (h : s.Bounded base stored)

include h

theorem Bounded.mono (hstored : stored ≤ stored') (hla : s.lastApplied ≤ s'.lastApplied)
    (hbase : base' ≤ s'.lastApplied) (htrigger : s'.apply.snapshotTrigger = s.apply.snapshotTrigger)
    (hwriting : ∀ p ∈ s'.writing, p ∈ s.writing) (hresults : ∀ r ∈ s'.written, r ∈ s.written)
    (hinstalled : ∀ p ∈ s'.installed, p ∈ s.installed) : s'.Bounded base' stored' where
  base := hbase
  trigger t ht := (h.trigger t (htrigger.symm.trans ht)).trans hla
  writing p hp := (h.writing p (hwriting p hp)).trans hla
  results r hr :=
    have hold := h.results r (hresults r hr)
    ⟨hold.1.trans hla, fun hok => (hold.2 hok).trans hstored⟩
  installed p hp hok := (h.installed p (hinstalled p hp) hok).trans hstored

theorem Bounded.report {p : SnapshotTrigger ι × List (LogEntry ι)}
    {rest : List (SnapshotTrigger ι × List (LogEntry ι))} (hw : s.writing = p :: rest) {err : Bool}
    (hle : stored ≤ stored') (hsaved : err = false → p.1.position.lastIncludedIndex ≤ stored') :
    Bounded { s with writing := rest, written := s.written ++ [⟨p.1, err⟩] } base stored' := by
  have happlied := h.writing p (by rw [hw]; exact List.mem_cons_self)
  refine ⟨h.base, h.trigger, fun q hq => h.writing q ?_, List.forall_mem_append.mpr
    ⟨fun r hr => ⟨(h.results r hr).1, fun hok => ((h.results r hr).2 hok).trans hle⟩,
      List.forall_mem_singleton.mpr ⟨happlied, hsaved⟩⟩,
    fun q hq hok => (h.installed q hq hok).trans hle⟩
  rw [hw]
  exact List.mem_cons_of_mem p hq

theorem Bounded.arrive {ok : Bool} (hle : stored ≤ stored')
    (hsaved : ok = true → snap.position.lastIncludedIndex ≤ stored') :
    Bounded { s with installed := s.installed ++ [(snap, ok)] } base stored' := by
  exact ⟨h.base, h.trigger, h.writing,
    fun r hr => ⟨(h.results r hr).1, fun hok => ((h.results r hr).2 hok).trans hle⟩,
    List.forall_mem_append.mpr ⟨fun q hq hok => (h.installed q hq hok).trans hle,
      List.forall_mem_singleton.mpr hsaved⟩⟩

end

end Side

namespace Node

variable [DecidableEq ι] [Sized ι] {n n' : Node ι}

/-- What the boundary rests on at a node. -/
structure Bounded (n : Node ι) : Prop where
  log : n.log.Bounded
  side : n.side.Bounded n.log.snapMeta.lastIncludedIndex n.log.w.storage.snapIndex

omit [DecidableEq ι] [Sized ι] in
theorem Bounded.of_side (h : n.Bounded) (hside : n'.side = n.side) (hlog : n'.log.Bounded)
    (hsame : n.log.SameBoundary n'.log) : n'.Bounded := by
  refine ⟨hlog, ?_⟩
  rw [hside, hsame.snapMeta, hsame.stored]
  exact h.side

theorem Moves.sameBoundary {inp : Input ι} (h : Moves inp n n') (hs : inp.BringsNone)
    (hdone : ∀ d due kept, inp ≠ .written d due kept) (hlog : n.log.Bounded) :
    n'.log.Bounded ∧ n.log.SameBoundary n'.log := by
  refine Moves.invariant (P := fun m => m.log.Bounded ∧ n.log.SameBoundary m.log)
    (fun m m' hm hmove => ?_) h ⟨hlog, rfl, rfl⟩
  rcases hmove.ordinary hs hdone with heq | ⟨call, hord, hmade, heq⟩
  · rwa [heq]
  · rw [heq]
    obtain ⟨hbounded, hsame⟩ := hm.1.call hord hmade
    exact ⟨hbounded, hm.2.trans hsame⟩

/-! ## Turns and goroutines -/

/-- The boundary is no further back than before. -/
structure NoFurtherBack (rl rl' : RaftLog ι) : Prop where
  stored : rl.w.storage.snapIndex ≤ rl'.w.storage.snapIndex
  memory : rl.snapMeta.lastIncludedIndex ≤ rl'.snapMeta.lastIncludedIndex

omit [DecidableEq ι] [Sized ι] in
theorem NoFurtherBack.of_same {rl rl' : RaftLog ι} (h : rl.SameBoundary rl') :
    NoFurtherBack rl rl' :=
  ⟨h.stored.ge, by rw [h.snapMeta]⟩

theorem Bounded.handleApplyResult (h : n.Bounded) :
    n.handleApplyResult.Bounded ∧ NoFurtherBack n.log n.handleApplyResult.log := by
  cases hres : n.apply.results with
  | nil =>
    have heq : n.handleApplyResult = n := by rw [Node.handleApplyResult, hres]
    rw [heq]
    exact ⟨h, le_rfl, le_rfl⟩
  | cons r rest =>
    obtain ⟨hlog, hsame⟩ := (handleApplyResult_moves n hres rfl).sameBoundary trivial
      (fun _ _ _ heq => by cases heq) h.log
    obtain ⟨m, heq, hside, -⟩ := handleApplyResult_eq hres
    refine ⟨⟨hlog, ?_⟩, .of_same hsame⟩
    rw [hsame.snapMeta, hsame.stored, heq]
    have hm : m.side.Bounded n.log.snapMeta.lastIncludedIndex n.log.w.storage.snapIndex := by
      rw [hside]
      exact h.side.mono le_rfl (le_max_left _ _) (h.side.base.trans (le_max_left _ _)) rfl
        (fun _ => id) (fun _ => id) fun _ => id
    -- The decision changes the trigger at most, which then is about the last entry applied.
    rcases maybeSnapshot_cases m with hno | ⟨term, -, hyes⟩
    · rw [hno]
      exact hm
    · rw [hyes]
      refine ⟨hm.base, fun t ht => ?_, hm.writing, hm.results, hm.installed⟩
      cases ht
      exact le_rfl

theorem Bounded.handleInstallSnapshot (h : n.Bounded) (src : Asker ι)
    (req : InstallSnapshotRequest ι) :
    (n.handleInstallSnapshot src req).Bounded ∧
      NoFurtherBack n.log (n.handleInstallSnapshot src req).log := by
  have hmoves := handleInstallSnapshot_moves n src n.cfg.id req rfl
  obtain ⟨hlog, hsame⟩ := hmoves.sameBoundary trivial (fun _ _ _ heq => by cases heq) h.log
  exact ⟨h.of_side (hmoves.side trivial) hlog hsame, .of_same hsame⟩

omit [DecidableEq ι] [Sized ι] in
theorem Bounded.captureSnapshot (h : n.Bounded) :
    n.captureSnapshot.Bounded ∧ NoFurtherBack n.log n.captureSnapshot.log := by
  unfold Node.captureSnapshot
  cases ht : n.apply.snapshotTrigger with
  | none => exact ⟨h, le_rfl, le_rfl⟩
  | some t =>
    exact ⟨⟨h.log, h.side.base, fun t' ht' => (by cases ht'), List.forall_mem_append.mpr
      ⟨h.side.writing, List.forall_mem_singleton.mpr (h.side.trigger t ht)⟩, h.side.results,
      h.side.installed⟩, le_rfl, le_rfl⟩

omit [DecidableEq ι] [Sized ι] in
theorem Bounded.writeSnapshot (h : n.Bounded) {outcome : SnapshotWrite ι}
    (hturn : outcome ≠ .refused → ∀ p, n.snapshots.writing.head? = some p →
      n.log.w.storage.snapIndex ≤ p.1.position.lastIncludedIndex) :
    (n.writeSnapshot outcome).Bounded ∧ NoFurtherBack n.log (n.writeSnapshot outcome).log := by
  unfold Node.writeSnapshot
  cases hw : n.snapshots.writing with
  | nil => exact ⟨h, le_rfl, le_rfl⟩
  | cons p rest =>
    -- What is saved, whole or cut short, stands for the index that was noted.
    have hle : outcome ≠ .refused → n.log.w.storage.snapIndex ≤ p.1.position.lastIncludedIndex :=
      fun hne => hturn hne p (by rw [hw]; rfl)
    cases outcome with
    | saved | cut written =>
      have hle := hle (by simp)
      exact ⟨⟨h.log.save hle, h.side.report hw hle fun _ => le_rfl⟩, hle, le_rfl⟩
    | refused =>
      exact ⟨⟨h.log, h.side.report hw le_rfl fun herr => (by cases herr)⟩, le_rfl, le_rfl⟩

omit [DecidableEq ι] in
theorem Bounded.takeSnapshotResult (h : n.Bounded)
    (hturn : ∀ r, n.snapshots.results.head? = some r → r.err = false →
      n.log.snapMeta.lastIncludedIndex ≤ r.trigger.position.lastIncludedIndex) :
    n.takeSnapshotResult.Bounded ∧ NoFurtherBack n.log n.takeSnapshotResult.log := by
  unfold Node.takeSnapshotResult
  cases hr : n.snapshots.results with
  | nil => exact ⟨h, le_rfl, le_rfl⟩
  | cons r rest =>
    have hmem : ∀ r' ∈ r :: rest, r' ∈ n.side.written := fun r' hr' =>
      show r' ∈ n.snapshots.results from hr ▸ hr'
    obtain ⟨happlied, hsaved⟩ := h.side.results r (hmem r List.mem_cons_self)
    have hrest : ∀ r' ∈ rest, r' ∈ n.side.written := fun r' hr' => hmem r' (List.mem_cons_of_mem r hr')
    unfold handleSnapshotResult
    dsimp only
    split_ifs with herr
    · exact ⟨⟨h.log, h.side.mono le_rfl le_rfl h.side.base rfl (fun _ => id) hrest fun _ => id⟩,
        le_rfl, le_rfl⟩
    · have hok : r.err = false := by simpa using herr
      have hstorage := (RaftLog.Extends.compact n.log r.trigger.position
        n.trailingLogs).storage h.log.wf.running.1
      have hstored := (congrArg Store.snapIndex hstorage).ge
      exact ⟨⟨h.log.compact (hsaved hok) _,
        h.side.mono hstored le_rfl happlied rfl (fun _ => id) hrest fun _ => id⟩, hstored,
        hturn r (by rw [hr]; rfl) hok⟩

omit [DecidableEq ι] [Sized ι] in
theorem Bounded.installSnapshot (h : n.Bounded) {saved ok : Bool}
    (hturn : saved = true → ∀ snap, n.snapshots.installing[k]? = some snap →
      n.log.w.storage.snapIndex ≤ snap.position.lastIncludedIndex) :
    (n.installSnapshot k saved ok).Bounded ∧
      NoFurtherBack n.log (n.installSnapshot k saved ok).log := by
  unfold Node.installSnapshot
  cases hk : n.snapshots.installing[k]? with
  | none => exact ⟨h, le_rfl, le_rfl⟩
  | some snap =>
    cases saved with
    | false => exact ⟨⟨h.log, h.side.arrive le_rfl fun hno => (by cases hno)⟩, le_rfl, le_rfl⟩
    | true =>
      have hle := hturn rfl snap hk
      exact ⟨⟨h.log.save hle, h.side.arrive hle fun _ => le_rfl⟩, hle, le_rfl⟩

omit [DecidableEq ι] [Sized ι] in
theorem setCommitIndex_log (n : Node ι) (idx : Nat) :
    (n.setCommitIndex idx).log = n.log ∨
      ∃ i, (n.setCommitIndex idx).log = n.log.enqueue (.commitIndex i) := by
  unfold setCommitIndex maybeRecordCommit
  dsimp only
  split_ifs
  · exact .inl rfl
  · exact .inl rfl
  · exact .inl rfl
  · exact .inr ⟨_, rfl⟩

theorem Bounded.adoptSnapshot (h : n.log.Bounded)
    (hle : snap.position.lastIncludedIndex ≤ n.log.w.storage.snapIndex) :
    (n.log.installSnapshot snap.position).isSome ∧ (n.adoptSnapshot snap).log.Bounded ∧
      (n.adoptSnapshot snap).log.snapMeta = snap.position ∧
      (n.adoptSnapshot snap).log.w.storage.snapIndex = n.log.w.storage.snapIndex := by
  obtain ⟨log, hinstall, -⟩ := RaftLog.installSnapshot_spec h.wf snap.position
  obtain ⟨hbounded, hmeta, hstorage⟩ := h.install hle hinstall
  obtain ⟨-, hframe⟩ := adoptFrame_side n snap
  unfold Node.adoptSnapshot
  generalize n.adoptFrame snap = m at hframe ⊢
  dsimp only
  rw [hframe, hinstall]
  refine ⟨rfl, ?_⟩
  dsimp only
  -- The membership is rebuilt and the commit index recorded; neither is about snapshots.
  generalize hm : (if snap.membership.isSome then
    ({ m with log := log } : Node ι).rebuildMembership.1.checkWitness else { m with log := log }) = m'
  have hrebuilt : m'.log.Bounded ∧ log.SameBoundary m'.log := by
    rw [← hm]
    split_ifs
    · -- Some input that is about the members; which one does not matter.
      have hinp : (Input.applied ⟨0, [], false, some (.remove n.cfg.id), none⟩).Reconfigures :=
        ⟨_, rfl, rfl⟩
      have hremains := (rebuildMembership_remains hinp { m with log := log }).trans (checkWitness_remains _)
      exact hremains.moves.sameBoundary trivial (fun _ _ _ heq => nomatch heq) hbounded
    · exact ⟨hbounded, rfl, rfl⟩
  obtain ⟨hb, hsame⟩ := hrebuilt
  suffices hlast : ∀ log' : RaftLog ι, log'.Bounded ∧ m'.log.SameBoundary log' →
      log'.Bounded ∧ log'.snapMeta = snap.position ∧
        log'.w.storage.snapIndex = n.log.w.storage.snapIndex by
    refine hlast _ ?_
    rcases setCommitIndex_log ({ m' with
      lastApplied := max m'.lastApplied snap.position.lastIncludedIndex
      apply := { m'.apply with restore := some snap } } : Node ι) snap.position.lastIncludedIndex with
      heq | ⟨i, heq⟩ <;> rw [heq]
    · exact ⟨hb, rfl, rfl⟩
    · exact hb.call (c := .commitIndex i) trivial trivial
  intro log' hlog'
  have htrans := hsame.trans hlog'.2
  exact ⟨hlog'.1, htrans.snapMeta.trans hmeta,
    htrans.stored.trans (congrArg Store.snapIndex hstorage)⟩

theorem Bounded.takeInstallResult (h : n.Bounded) (k : Nat) :
    (n.takeInstallResult k).Bounded ∧ NoFurtherBack n.log (n.takeInstallResult k).log := by
  unfold Node.takeInstallResult
  cases hget : n.snapshots.installed[k]? with
  | none => exact ⟨h, le_rfl, le_rfl⟩
  | some p =>
    obtain ⟨snap, ok⟩ := p
    dsimp only
    set n₁ : Node ι := { n with snapshots := { n.snapshots with
      installed := n.snapshots.installed.eraseIdx k } } with hn₁
    have hleft : ∀ p ∈ n₁.side.installed, p ∈ n.side.installed := fun _ => List.mem_of_mem_eraseIdx
    obtain ⟨_, _, _, _, _, m, hm, ⟨rfl, hlt, hadopt⟩ | ⟨-, hsame⟩⟩ :=
      handleSnapInstallResult_cases n₁ snap ok
    · have hlog : m.log = n.log := by rw [hm]
      have hside : m.side = n₁.side := by rw [hm]; rfl
      have hle : snap.position.lastIncludedIndex ≤ m.log.w.storage.snapIndex := by
        rw [hlog]
        exact h.side.installed (snap, true) (List.mem_of_getElem? hget) rfl
      have hlt' : n.lastApplied < snap.position.lastIncludedIndex := hlt
      obtain ⟨hsome, hbounded, hmeta, hstored⟩ := Bounded.adoptSnapshot (n := m) (hlog ▸ h.log) hle
      have hadopted := adoptSnapshot_side (n := m) (by rw [hm]; exact hlt) hsome
      rw [hlog] at hstored
      rw [hside] at hadopted
      rw [hadopt]
      refine ⟨⟨hbounded, ?_⟩, hstored.ge, ?_⟩
      · rw [hadopted, hmeta]
        exact h.side.mono hstored.ge hlt'.le le_rfl rfl (fun _ => id) (fun _ => id) hleft
      · rw [hmeta]
        exact h.side.base.trans hlt'.le
    · rw [hsame, hm]
      exact ⟨⟨h.log, h.side.mono le_rfl le_rfl h.side.base rfl (fun _ => id) (fun _ => id) hleft⟩,
        le_rfl, le_rfl⟩

/-! ## Starting -/

theorem Bounded.of_new {cfg : Config ι} {s : Store ι} {boot draws : Nat} {out : List (Msg ι)}
    {sm : List (LogEntry ι)} (hs : s.Wf) (hadj : s.Adjoins s.snapIndex)
    (h : new cfg s boot draws out sm = some n) :
    n.Bounded ∧ n.log.w.storage = s ∧ n.log.snapMeta.lastIncludedIndex = s.snapIndex := by
  obtain ⟨hbounded, hstorage, hindex⟩ := RaftLog.Bounded.of_new hs hadj (new_starts h).2
  refine ⟨⟨hbounded, ?_⟩, hstorage, hindex⟩
  have hlog := (new_starts h).2
  obtain ⟨log, hnew, -, -, rfl⟩ := new_cases h
  have hside : ((recovered cfg s log boot draws out sm).rebuildMembership.1.resetElectionTimeout).side =
      (recovered cfg s log boot draws out sm).side :=
    (rebuildMembership_remains snapshot_reconfigures (recovered cfg s log boot draws out sm)).side
  rw [hside, Option.some.inj (hlog.symm.trans hnew)]
  exact ⟨le_max_left _ _, fun t ht => (by cases ht), fun p hp => (by cases hp), fun r hr => (by cases hr),
    fun p hp => (by cases hp)⟩

theorem Bounded.restart (h : n.Bounded) (hn' : n.restart k = some n') :
    n'.Bounded ∧ NoFurtherBack n.log n'.log := by
  obtain ⟨s, hs, hnew⟩ := Option.bind_eq_some_iff.mp hn'
  have hstage : n.log.stage k = some s := by
    rw [RaftLog.survives, h.log.wf.running.2] at hs
    exact hs
  obtain ⟨s', hs', hwf⟩ := h.log.wf.stages k
  obtain rfl := Option.some.inj (hs'.symm.trans hstage)
  have hindex := RaftLog.snapIndex_of_stage hstage
  obtain ⟨hb, hstorage, hmeta⟩ := Bounded.of_new hwf (hindex ▸ h.log.adjoined k s' hstage) hnew
  refine ⟨hb, ?_, ?_⟩
  · rw [hstorage, hindex]
  · rw [hmeta, hindex]
    exact h.log.base

/-- Snapshot and position do not go back, and the stored log starts right behind the snapshot. -/
structure Advances (n n' : Node ι) : Prop where
  stored : n.log.w.storage.snapIndex ≤ n'.log.w.storage.snapIndex
  memory : n.log.snapMeta.lastIncludedIndex ≤ n'.log.snapMeta.lastIncludedIndex
  adjoins : n'.log.w.storage.Adjoins n'.log.w.storage.snapIndex

end Node

/-! ## Whole runs -/

/-- What happens at a node that takes and receives snapshots.  `call` is anything else done to
its log. -/
inductive BoundaryEvent (ι : Type)
  | call (c : LogCall ι)
  | applied (r : ApplyResult ι)
  | chunk (src : Asker ι) (req : InstallSnapshotRequest ι)
  | capture
  | write (outcome : SnapshotWrite ι)
  | snapshotResult
  | install (k : Nat) (saved ok : Bool)
  | installResult (k : Nat)
  | crash (k : Nat)

namespace BoundaryEvent

variable [DecidableEq ι] [Sized ι] {n : Node ι}

def step (n : Node ι) : BoundaryEvent ι → Node ι
  | call c => { n with log := c.step n.log }
  | applied r =>
    Node.handleApplyResult { n with apply := { n.apply with results := r :: n.apply.results } }
  | chunk src req => n.handleInstallSnapshot src req
  | capture => n.captureSnapshot
  | write outcome => n.writeSnapshot outcome
  | snapshotResult => n.takeSnapshotResult
  | install k saved ok => n.installSnapshot k saved ok
  | installResult k => n.takeInstallResult k
  | crash k => (n.restart k).getD n

def run (n : Node ι) (events : List (BoundaryEvent ι)) : Node ι := events.foldl step n

def Made (n : Node ι) : BoundaryEvent ι → Prop
  | call c => c.Ordinary ∧ c.Made n.log
  | _ => True

/-- A snapshot that lands, or is heard about, is not older than the one that is there. -/
def InTurn (n : Node ι) : BoundaryEvent ι → Prop
  | write outcome => outcome ≠ .refused → ∀ p ∈ n.snapshots.writing.head?,
      n.log.w.storage.snapIndex ≤ p.1.position.lastIncludedIndex
  | install k saved _ => saved = true → ∀ snap ∈ n.snapshots.installing[k]?,
      n.log.w.storage.snapIndex ≤ snap.position.lastIncludedIndex
  | snapshotResult => ∀ r ∈ n.snapshots.results.head?, r.err = false →
      n.log.snapMeta.lastIncludedIndex ≤ r.trigger.position.lastIncludedIndex
  | _ => True

instance (n : Node ι) (ev : BoundaryEvent ι) : Decidable (ev.InTurn n) := by
  cases ev <;> unfold InTurn <;> infer_instance

def Along (P : Node ι → BoundaryEvent ι → Prop) (n : Node ι) : List (BoundaryEvent ι) → Prop
  | [] => True
  | ev :: events => P n ev ∧ Along P (ev.step n) events

instance Along.decidable {P : Node ι → BoundaryEvent ι → Prop} [∀ n ev, Decidable (P n ev)] :
    ∀ (n : Node ι) (events : List (BoundaryEvent ι)), Decidable (Along P n events)
  | _, [] => isTrue trivial
  | n, ev :: events =>
    have := Along.decidable (P := P) (ev.step n) events
    inferInstanceAs (Decidable (_ ∧ _))

/-- **A step in turn** keeps what the boundary rests on, and the boundary does not go
back. -/
theorem step_bounded {ev : BoundaryEvent ι} (h : n.Bounded) (hmade : ev.Made n)
    (hturn : ev.InTurn n) : (ev.step n).Bounded ∧ Node.NoFurtherBack n.log (ev.step n).log := by
  cases ev with
  | call c =>
    obtain ⟨hlog, hsame⟩ := h.log.call hmade.1 hmade.2
    exact ⟨h.of_side rfl hlog hsame, .of_same hsame⟩
  | applied r =>
    have hheard : ({ n with apply := { n.apply with results := r :: n.apply.results } } :
        Node ι).Bounded :=
      ⟨h.log, h.side.mono le_rfl le_rfl h.side.base rfl (fun _ => id) (fun _ => id) fun _ => id⟩
    exact hheard.handleApplyResult
  | chunk src req => exact h.handleInstallSnapshot src req
  | capture => exact h.captureSnapshot
  | write outcome => exact h.writeSnapshot hturn
  | snapshotResult => exact h.takeSnapshotResult hturn
  | install k saved ok => exact h.installSnapshot hturn
  | installResult k => exact h.takeInstallResult k
  | crash k =>
    change ((n.restart k).getD n).Bounded ∧ Node.NoFurtherBack n.log ((n.restart k).getD n).log
    cases hn' : n.restart k with
    | none => exact ⟨h, le_rfl, le_rfl⟩
    | some n' => exact h.restart hn'

theorem inTurn_of_advances {ev : BoundaryEvent ι} (h : n.Advances (ev.step n)) : ev.InTurn n := by
  cases ev with
  | write outcome =>
    intro hne p hp
    obtain ⟨rest, hw⟩ := List.head?_eq_some_iff.mp hp
    have hstored := h.stored
    simp only [step, Node.writeSnapshot, hw] at hstored
    cases outcome with
    | saved | cut written => exact hstored
    | refused => exact absurd rfl hne
  | install k saved ok =>
    rintro rfl snap hk
    have hstored := h.stored
    simp only [step, Node.installSnapshot, Option.mem_def.mp hk] at hstored
    exact hstored
  | snapshotResult =>
    intro r hr herr
    obtain ⟨rest, hw⟩ := List.head?_eq_some_iff.mp hr
    have hmemory := h.memory
    simp only [step, Node.takeSnapshotResult, hw, Node.handleSnapshotResult, herr] at hmemory
    exact hmemory
  | _ => exact trivial

def KeepsBoundary (n : Node ι) (events : List (BoundaryEvent ι)) : Prop :=
  Along (fun n ev => n.Advances (ev.step n)) n events

theorem keeps_iff_of_bounded (h : n.Bounded) {events : List (BoundaryEvent ι)}
    (hmade : Along (fun n ev => ev.Made n) n events) :
    KeepsBoundary n events ↔ Along (fun n ev => ev.InTurn n) n events := by
  induction events generalizing n with
  | nil => exact Iff.rfl
  | cons ev events ih =>
    constructor
    · rintro ⟨hadv, hrest⟩
      have hturn := inTurn_of_advances hadv
      exact ⟨hturn, (ih (step_bounded h hmade.1 hturn).1 hmade.2).mp hrest⟩
    · rintro ⟨hturn, hrest⟩
      obtain ⟨hb, hback⟩ := step_bounded h hmade.1 hturn
      exact ⟨⟨hback.stored, hback.memory, hb.log.adjoined.storage⟩, (ih hb hmade.2).mpr hrest⟩

/-- **The boundary between snapshot and log** stays sound exactly while no snapshot lands on a
newer one or is heard about after a newer one has been adopted. -/
theorem keepsBoundary_iff {cfg : Config ι} {s : Store ι} {boot draws : Nat} {out : List (Msg ι)}
    {sm : List (LogEntry ι)} {n : Node ι} (hs : s.Wf) (hadj : s.Adjoins s.snapIndex)
    (hnew : Node.new cfg s boot draws out sm = some n) {events : List (BoundaryEvent ι)}
    (hmade : Along (fun n ev => ev.Made n) n events) :
    KeepsBoundary n events ↔ Along (fun n ev => ev.InTurn n) n events :=
  keeps_iff_of_bounded (Node.Bounded.of_new hs hadj hnew).1 hmade

def snapper : Node Nat :=
  (Node.new { Config.ofGroup [0, 1, 2] 0 with snapshotThreshold := 1 } .empty 0 0 [] []).get
    (by decide +kernel)

def upToThree : InstallSnapshotRequest Nat :=
  ⟨1, 1, ⟨3, 1⟩, 0, 1, true, ⟨⟨3, 1⟩, [], none, none, []⟩⟩

/-- A local snapshot is captured, and the leader sends one up to index 3. -/
def bothUnderWay : List (BoundaryEvent Nat) :=
  [.call (.append [⟨1, 1, .noop⟩]), .call .execute, .applied ⟨1, [], false, none, some .noop⟩,
    .capture, .chunk ⟨1, 0⟩ upToThree]

def localFirst : List (BoundaryEvent Nat) :=
  bothUnderWay ++ [.write .saved, .install 0 true true, .snapshotResult, .installResult 0,
    .call .execute]

theorem keepsBoundary_localFirst : KeepsBoundary snapper localFirst :=
  have hmade : Along (fun n ev => ev.Made n) snapper localFirst :=
    ⟨⟨trivial, by decide, Contiguous.singleton _⟩, ⟨trivial, trivial⟩, trivial, trivial, trivial,
      trivial, trivial, trivial, trivial, ⟨trivial, trivial⟩, trivial⟩
  (keepsBoundary_iff (s := .empty) ⟨Contiguous.nil _, fun h => absurd rfl h⟩
    (fun h => absurd rfl h) (Option.some_get _).symm hmade).mpr (by decide +kernel)

/-- The leader's snapshot is adopted first, and the local one lands on it. -/
def leadersFirst : List (BoundaryEvent Nat) :=
  bothUnderWay ++ [.call .execute, .install 0 true true, .installResult 0, .call .execute,
    .write .saved, .call (.append [⟨4, 1, .user [1]⟩]), .call .execute, .snapshotResult]

/-- Storage goes from snapshot 3 back to 1 and then holds entry 4 after it; so does memory. -/
theorem not_keepsBoundary_leadersFirst :
    ¬ KeepsBoundary snapper leadersFirst ∧
    (run snapper (leadersFirst.take 9)).log.w.storage.snapIndex = 3 ∧
    (run snapper (leadersFirst.take 9)).log.snapMeta.lastIncludedIndex = 3 ∧
    (run snapper leadersFirst).log.w.storage.snapIndex = 1 ∧
    (run snapper leadersFirst).log.w.storage.entries.map (·.index) = [4] ∧
    (run snapper leadersFirst).log.snapMeta.lastIncludedIndex = 1 := by
  refine ⟨fun h => ?_, by decide +kernel⟩
  have hback := h.2.2.2.2.2.2.2.2.2.1.stored
  revert hback
  decide +kernel

end BoundaryEvent

end Raft
