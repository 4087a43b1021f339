import Raft.Linked
import Raft.Log.StableIndex
import Raft.Replication.Merge

/-!
# Chains of entries

An entry is created by a leader behind the last entry of its log, and the record of
creations says behind which term that was.  Logs hold copies of created entries: the
entry itself, or what a witness keeps of it.  A log that has never been compacted is a
chain: it starts at index 1, and every entry is a copy of one created behind the term
that stands before it.  This is true of what storage holds at every point of the queue
of writes, so that a crash does not break a chain.

## Main results

* `Builds.carries`: what a leader sends continues a chain.
* `acceptEntries_chained`: what a follower accepts keeps its log a chain.
-/

namespace Raft

variable {ι : Type} {t : Nat}

/-- What a node keeps of an entry: a witness only the shape, unless it is about the configuration.
-/
def LogEntry.keptBy (witness : Bool) (e : LogEntry ι) : LogEntry ι :=
  if witness = true ∧ e.command.isConfigEntry = false then { e with command := .noop } else e

namespace LogEntry

variable (witness : Bool) (e : LogEntry ι)

@[simp] theorem keptBy_index : (e.keptBy witness).index = e.index := by
  unfold keptBy
  split_ifs <;> rfl

@[simp] theorem keptBy_term : (e.keptBy witness).term = e.term := by
  unfold keptBy
  split_ifs <;> rfl

@[simp] theorem keptBy_false : e.keptBy false = e := by simp [keptBy]

@[simp] theorem keptBy_keptBy : (e.keptBy witness).keptBy witness = e.keptBy witness := by
  unfold keptBy
  split_ifs <;> rfl

end LogEntry

@[simp] theorem map_keptBy_false (es : List (LogEntry ι)) : es.map (LogEntry.keptBy false) = es := by
  have hid : (LogEntry.keptBy false : LogEntry ι → LogEntry ι) = id :=
    funext LogEntry.keptBy_false
  rw [hid, List.map_id]

theorem stripForWitness_eq (es : List (LogEntry ι)) :
    stripForWitness es = es.map (LogEntry.keptBy true) := by
  refine List.map_congr_left fun e _ => ?_
  cases h : e.command.isConfigEntry <;> simp [LogEntry.keptBy, h]

theorem ite_stripForWitness (strip : Bool) (es : List (LogEntry ι)) :
    (if strip = true then stripForWitness es else es) = es.map (LogEntry.keptBy strip) := by
  cases strip <;> simp [stripForWitness_eq]

/-- The entries that have been created: by whom, and behind which term. -/
abbrev LinkRecord (ι : Type) := ι → Nat → LogEntry ι → Prop

/-- The entry is what a node keeps of one that was created behind the term `t`. -/
def Copied (links : LinkRecord ι) (witness : Bool) (t : Nat) (e : LogEntry ι) : Prop :=
  ∃ q o, links q t o ∧ e = o.keptBy witness

def CopiedFor (links : LinkRecord ι) (witness : Bool) (t : Nat) (e : LogEntry ι) : Prop :=
  ∃ q o, links q t o ∧ e.keptBy witness = o.keptBy witness

section Copied

variable {links links' : LinkRecord ι} {witness : Bool} {t : Nat} {e : LogEntry ι}

theorem Copied.mono (h : Copied links witness t e) (hle : links ≤ links') :
    Copied links' witness t e := by
  obtain ⟨q, o, hlink, heq⟩ := h
  exact ⟨q, o, hle q t o hlink, heq⟩

theorem CopiedFor.mono (h : CopiedFor links witness t e) (hle : links ≤ links') :
    CopiedFor links' witness t e := by
  obtain ⟨q, o, hlink, heq⟩ := h
  exact ⟨q, o, hle q t o hlink, heq⟩

theorem Copied.keptBy (h : Copied links false t e) (strip : Bool) (hstrip : strip = true → witness = true) :
    CopiedFor links witness t (e.keptBy strip) := by
  obtain ⟨q, o, hlink, heq⟩ := h
  subst heq
  refine ⟨q, e, hlink, ?_⟩
  cases strip with
  | false => simp
  | true =>
    rw [hstrip rfl]
    simp

theorem CopiedFor.keptBy (h : CopiedFor links witness t e) :
    Copied links witness t (e.keptBy witness) := h

end Copied

open Linked (lastTag)

/-- The entries start at index 1, and each stands behind the term of the one before. -/
structure Whole (R : Nat → LogEntry ι → Prop) (es : List (LogEntry ι)) : Prop where
  contiguous : Contiguous 1 es
  linked : Linked LogEntry.term R 0 es

namespace Whole

variable {R R' : Nat → LogEntry ι → Prop} {es es' : List (LogEntry ι)}

theorem nil (R : Nat → LogEntry ι → Prop) : Whole R [] := ⟨Contiguous.nil _, trivial⟩

theorem mono (h : Whole R es) (hle : ∀ t e, R t e → R' t e) : Whole R' es :=
  ⟨h.contiguous, h.linked.mono fun t e _ => hle t e⟩

theorem append (h : Whole R es) (hc : Contiguous (es.length + 1) es')
    (hl : Linked LogEntry.term R (lastTag LogEntry.term 0 es) es') : Whole R (es ++ es') :=
  ⟨h.contiguous.append (Nat.add_comm 1 _ ▸ hc), Linked.append_iff.mpr ⟨h.linked, hl⟩⟩

theorem take (h : Whole R es) (k : Nat) : Whole R (es.take k) :=
  ⟨h.contiguous.take k, h.linked.take k⟩

end Whole

namespace RaftLog

/-- The log is whole at every point of the queue, and there is no snapshot. -/
structure Chained (R : Nat → LogEntry ι → Prop) (rl : RaftLog ι) : Prop where
  refines : rl.Refines ⟨⟨0, 0⟩, rl.contents⟩
  nosnap : rl.w.storage.snap = none
  stages : rl.AllStages fun s => Whole R s.entries

namespace Chained

variable {R R' : Nat → LogEntry ι → Prop} {rl rl' : RaftLog ι} {es : List (LogEntry ι)} {i : Nat}

section

variable (h : rl.Chained R)

include h

theorem wf : rl.Wf := h.refines.wf

theorem mono (hle : ∀ t e, R t e → R' t e) : rl.Chained R' :=
  ⟨h.refines, h.nosnap, h.stages.mono fun _ hs => hs.mono hle⟩

theorem whole : Whole R rl.contents := by
  obtain ⟨s, hs, -, hcont⟩ := h.wf.settles
  rw [hcont]
  exact h.stages.settled hs

theorem first_eq_one (hne : rl.contents ≠ []) : rl.first = 1 := by
  obtain ⟨e, he⟩ : ∃ e, rl.contents.head? = some e := ⟨_, List.head?_eq_some_head hne⟩
  rw [← h.wf.contiguous.head?_index he, h.whole.contiguous.head?_index he]

theorem lastLogIndex_eq : rl.lastLogIndex = rl.contents.length := by
  rw [h.wf.lastLogIndex_eq, h.refines.base]
  cases hl : rl.contents.getLast? with
  | none =>
    rw [List.getLast?_eq_none_iff.mp hl]
    rfl
  | some e =>
    have := h.whole.contiguous.getLast?_index hl
    rw [Option.map_some, Option.getD_some]
    omega

theorem termAt_eq (hi : 0 < i) : rl.termAt i = rl.contents[i - 1]?.map (·.term) := by
  rw [h.refines.termAt_eq, PlainLog.termAt, if_neg (by omega), if_neg (by dsimp only; omega),
    PlainLog.entryAt, h.whole.contiguous.find?_index hi]

theorem lastTag_of_termAt (hi : 0 < i) (ht : rl.termAt i = some t) :
    i ≤ rl.contents.length ∧ lastTag LogEntry.term 0 (rl.contents.take i) = t := by
  rw [h.termAt_eq hi, Option.map_eq_some_iff] at ht
  obtain ⟨e, he, rfl⟩ := ht
  have hlt := (List.getElem?_eq_some_iff.mp he).1
  refine ⟨by omega, ?_⟩
  rw [show i = i - 1 + 1 by omega]
  exact Linked.lastTag_take_succ he

theorem enqueue {op : WriteOp ι} (hw : rl'.w = rl.w.enqueue op) (href : rl'.Refines ⟨⟨0, 0⟩, es⟩)
    (hes : Whole R es) : rl'.Chained R := by
  have hcont := href.contents
  refine ⟨by rw [hcont]; exact href, ?_, h.stages.enqueue h.wf.running.1 hw fun s hs => ?_⟩
  · rw [storage_of_enqueue h.wf.running.1 hw]
    exact h.nosnap
  · rw [← contents_of_settled hs, hcont]
    exact hes

theorem of_memory (href : rl'.Refines ⟨⟨0, 0⟩, rl.contents⟩)
    (hstage : ∀ k, rl'.stage k = rl.stage k) (hstorage : rl'.w.storage = rl.w.storage) :
    rl'.Chained R :=
  ⟨⟨href.wf, href.segmented, rfl, href.base⟩, by rw [hstorage]; exact h.nosnap,
    h.stages.congr hstage⟩

end

theorem of_fresh {s : Store ι} (hfresh : Fresh s rl) (hs : Whole R s.entries) (hsnap : s.snap = none) :
    rl.Chained R := by
  have href := Refines.of_fresh hfresh
  rw [← hfresh.contents, show snapPosition s = ⟨0, 0⟩ by rw [snapPosition, hsnap]] at href
  exact ⟨href, by rw [hfresh.storage]; exact hsnap, .of_fresh hfresh hs⟩

theorem of_stage (h : rl.Chained R) {k : Nat} {s : Store ι} (hs : rl.stage k = some s) :
    s.Wf ∧ Whole R s.entries ∧ s.snap = none := by
  obtain ⟨s', hs', hwf⟩ := h.wf.stages k
  cases hs.symm.trans hs'
  exact ⟨hwf, h.stages k s hs, (StorageWriter.execAll_snap hs).trans h.nosnap⟩

theorem collect (h : rl.Chained R) : ({ rl with w := rl.w.takeDone.2 } : RaftLog ι).Chained R := by
  refine h.of_memory ⟨?_, ?_, rfl, h.refines.base⟩ (fun _ => rfl) rfl
  · exact h.wf.of_contents_eq h.wf.running h.wf.stages rfl rfl rfl rfl
  · have hseg := h.refines.segmented
    exact ⟨hseg.split, hseg.held, hseg.segs_sorted, hseg.segs_le, hseg.queue_sorted, hseg.queue_le,
      fun d hd => (by cases hd)⟩

variable [Sized ι]

section

variable (h : rl.Chained R)

include h

theorem enqueue_hardState (hs : HardState ι) : (rl.enqueue (.hardState hs)).Chained R := by
  have hmade : LogCall.Made rl (.hardState hs) := trivial
  exact h.enqueue rfl (h.refines.step hmade) h.whole

theorem enqueue_commitIndex (i : Nat) : (rl.enqueue (.commitIndex i)).Chained R := by
  have hmade : LogCall.Made rl (.commitIndex i) := trivial
  exact h.enqueue rfl (h.refines.step hmade) h.whole

theorem execute : (rl.execute none).Chained R := by
  have hmade : LogCall.Made rl .execute := trivial
  have href := h.refines.step hmade
  obtain ⟨s, hs, heq⟩ := h.wf.exists_execute
  have hstorage : (rl.execute none).w.storage = s := congrArg StorageWriter.storage heq
  refine ⟨?_, ?_, h.stages.execute h.wf⟩
  · rw [h.wf.execute.2]
    exact href
  · rw [hstorage]
    exact (h.of_stage hs).2.2

theorem stabilize {d : WriteDone} (hd : ∀ op ∈ rl.w.queue, d.seq < op.seq) :
    (rl.stabilize d).Chained R := by
  obtain ⟨hwf, hcont⟩ := h.wf.stabilize d
  have hsame : (rl.stabilize d).w = rl.w ∧ (rl.stabilize d).snapMeta = rl.snapMeta := by
    unfold RaftLog.stabilize
    split_ifs <;> exact ⟨rfl, rfl⟩
  refine h.of_memory ⟨hwf, h.refines.segmented.stabilize hd, hcont, hsame.2.trans h.refines.base⟩
    (fun k => ?_) (by rw [hsame.1])
  rw [stage, stage, hsame.1]

theorem append (hne : es ≠ []) (hc : Contiguous (rl.lastLogIndex + 1) es)
    (hl : Linked LogEntry.term R (lastTag LogEntry.term 0 rl.contents) es) :
    (rl.append es).2.Chained R := by
  obtain ⟨e, e', he, he'⟩ := exists_ends hne
  have hw : (rl.append es).2.w = rl.w.enqueue ⟨rl.nextSeq + 1, .append es, e'.index⟩ := by
    rw [append_eq he he']
  refine h.enqueue hw (h.refines.append hne hc) (h.whole.append ?_ hl)
  rw [← h.lastLogIndex_eq]
  exact hc

theorem cut (hi : 0 < i) (hle : i ≤ rl.contents.length) :
    ∃ rl', rl.truncateSuffix i = some rl' ∧ rl'.Chained R ∧
      rl'.contents = rl.contents.take (i - 1) ∧ SuffixCut rl i rl' := by
  have hne : rl.contents ≠ [] := List.ne_nil_of_length_pos (by omega)
  have hfirst := h.first_eq_one hne
  have hlast := h.wf.last_add_one hne
  obtain ⟨rl', hrl', hcut⟩ := exists_suffixCut (i := i) h.wf (by omega) (by omega) (by omega)
  obtain ⟨rl'', hrl'', href⟩ :=
    h.refines.truncateSuffix (i := i) (by omega) (by omega) (by omega)
  cases hrl'.symm.trans hrl''
  have hcont := href.contents
  rw [h.whole.contiguous.filter_lt] at hcont href
  exact ⟨rl', hrl', h.enqueue hcut.w href (h.whole.take _), hcont, hcut⟩

end

end Chained

end RaftLog

/-- The entries of the request stand behind the entry it names, and it names none only at the
beginning. -/
structure AppendEntriesRequest.Carries (R : Nat → LogEntry ι → Prop) (req : AppendEntriesRequest ι) :
    Prop where
  contiguous : Contiguous (req.prevLogIndex + 1) req.entries
  linked : Linked LogEntry.term R req.prevLogTerm req.entries
  behind : req.entries ≠ [] → (req.prevLogIndex = 0 ↔ req.prevLogTerm = 0)

theorem AppendEntriesRequest.Carries.mono {R R' : Nat → LogEntry ι → Prop}
    {req : AppendEntriesRequest ι} (h : req.Carries R) (hle : ∀ t e, R t e → R' t e) :
    req.Carries R' :=
  ⟨h.contiguous, h.linked.mono fun t e _ => hle t e, h.behind⟩

namespace Node

variable [DecidableEq ι] [Sized ι] {links : LinkRecord ι} {n : Node ι} {es : List (LogEntry ι)}
  {peer : ι} {req : AppendEntriesRequest ι}

theorem entriesFor_pos (h : n.entriesFor peer = some es) (hne : es ≠ []) :
    0 < lookup n.nextIndex peer ∧ lookup n.nextIndex peer ≤ n.log.lastLogIndex := by
  simp only [entriesFor] at h
  split_ifs at h with hle
  · refine ⟨Nat.pos_of_ne_zero fun hzero => ?_, hle⟩
    obtain ⟨slice, hslice, -⟩ := Option.map_eq_some_iff.mp h
    simp only [RaftLog.entries] at hslice
    rw [if_neg (by omega), if_pos (by omega)] at hslice
    cases hslice
  · exact absurd (Option.some.inj h).symm hne

omit [Sized ι] in
theorem linked_strippedFor {witness : Bool}
    (hmark : n.membership.isWitnessPeer peer = true → witness = true)
    (h : Linked LogEntry.term (Copied links false) t es) :
    Linked LogEntry.term (CopiedFor links witness) t (n.strippedFor peer es) := by
  rw [strippedFor, ite_stripForWitness]
  exact h.map (LogEntry.keptBy_term _) fun t e he => he.keptBy _ hmark

/-- **What a leader sends continues a chain.** -/
theorem Builds.carries {witness : Bool} (hb : n.Builds peer req)
    (h : n.log.Chained (Copied links false)) (hpos : ∀ q t o, links q t o → 0 < o.term)
    (hmark : n.membership.isWitnessPeer peer = true → witness = true) :
    req.Carries (CopiedFor links witness) := by
  cases hb with
  | empty barrier => exact ⟨Contiguous.nil _, trivial, fun hne => absurd rfl hne⟩
  | entries es _ hes =>
    rcases eq_or_ne es [] with rfl | hne
    · exact ⟨Contiguous.nil _, trivial, fun hne => absurd rfl hne⟩
    obtain ⟨hnext, hle⟩ := entriesFor_pos hes hne
    rw [h.lastLogIndex_eq] at hle
    have hcont : n.log.contents ≠ [] := List.ne_nil_of_length_pos (by omega)
    have hfirst := h.first_eq_one hcont
    have hpred : predIndex (lookup n.nextIndex peer) = lookup n.nextIndex peer - 1 :=
      if_neg (by omega)
    rcases entriesFor_spec h.wf h.refines.segmented (fun _ => by omega) hnext hes with
      hnil | ⟨-, k, rfl⟩
    · exact absurd hnil hne
    -- The term the request names is the one before its entries.
    obtain ⟨hterm, hzero⟩ : (n.log.termAt (lookup n.nextIndex peer - 1)).getD 0 =
          lastTag LogEntry.term 0 (n.log.contents.take (lookup n.nextIndex peer - 1)) ∧
        (lookup n.nextIndex peer - 1 = 0 ↔
          (n.log.termAt (lookup n.nextIndex peer - 1)).getD 0 = 0) := by
      rcases Nat.eq_zero_or_pos (lookup n.nextIndex peer - 1) with hz | hz
      · simp [hz, RaftLog.termAt]
      · have hlt : lookup n.nextIndex peer - 1 - 1 < n.log.contents.length := by omega
        have hget := List.getElem?_eq_getElem hlt
        have hta := h.termAt_eq hz
        rw [hget, Option.map_some] at hta
        have hlast := (h.lastTag_of_termAt hz hta).2
        obtain ⟨q, o, hlink, hcopy⟩ := Linked.iff_joint.mp h.whole.linked _ _ ⟨_, hget, rfl⟩
        have hp := hpos q _ o hlink
        rw [← o.keptBy_term false, ← hcopy] at hp
        rw [hta, Option.getD_some, hlast]
        exact ⟨rfl, by omega⟩
    rw [hfirst]
    refine ⟨?_, ?_, fun _ => ?_⟩ <;> simp only [emptyAppend, hpred]
    · have hc := (h.whole.contiguous.drop (lookup n.nextIndex peer - 1)).take k
      rw [Nat.add_comm] at hc
      exact hc.of_shape (strippedFor_shape n peer _)
    · have hl := (h.whole.linked.drop (lookup n.nextIndex peer - 1)).take k
      rw [← hterm] at hl
      exact linked_strippedFor hmark hl
    · exact hzero

/-- The node a merge leaves, whether it succeeds or is given up. -/
def mergedNode : Except (Node ι) (Nat × Node ι) → Node ι
  | .error m => m
  | .ok wm => wm.2

/-- A property that is kept where an entry in conflict gives way, and where entries are put behind
the log. -/
structure MergeKeeps (R : Nat → LogEntry ι → Prop) (n : Node ι) (es : List (LogEntry ι))
    (Q : RaftLog ι → Prop) : Prop where
  cut : ∀ {e : LogEntry ι} {t : Nat} {rl : RaftLog ι}, e ∈ es → n.log.termAt e.index = some t →
    t ≠ e.term → n.log.truncateSuffix e.index = some rl → RaftLog.SuffixCut n.log e.index rl →
    rl.Chained R → rl.contents = n.log.contents.take (e.index - 1) → Q n.log → Q rl
  append : ∀ {rl : RaftLog ι} {suf : List (LogEntry ι)}, rl.Chained R → suf ⊆ es → suf ≠ [] →
    Contiguous (rl.lastLogIndex + 1) suf → Q rl → Q (rl.append suf).2

/-- **Merging keeps a chain**, and what its steps keep.  Unless it is given up, the log holds the
entries then. -/
theorem mergeEntries_keeps {R : Nat → LogEntry ι → Prop} {Q : RaftLog ι → Prop} {prev : Nat}
    (h : n.log.Chained R) (hfol : n.state ≠ .leader) (hc : Contiguous (prev + 1) es)
    (hl : Linked LogEntry.term R t es) (hprev : prev ≤ n.log.contents.length ∧
      lastTag LogEntry.term 0 (n.log.contents.take prev) = t) (hkeeps : MergeKeeps R n es Q)
    (hQ : Q n.log) :
    ((mergedNode (n.mergeEntries es)).log.Chained R ∧ Q (mergedNode (n.mergeEntries es)).log) ∧
      ∀ wm, n.mergeEntries es = .ok wm → ∀ e ∈ es, ∃ x ∈ wm.2.log.contents,
        x.index = e.index ∧ x.term = e.term := by
  -- An entry whose term is found is there.
  have hfound : ∀ {x : LogEntry ι}, 0 < x.index → n.log.termAt x.index = some x.term →
      ∃ y, n.log.contents[x.index - 1]? = some y ∧ y.index = x.index ∧ y.term = x.term := by
    intro x hpos hx
    rw [h.termAt_eq hpos, Option.map_eq_some_iff] at hx
    obtain ⟨y, hy, hterm⟩ := hx
    have := h.whole.contiguous _ y hy
    exact ⟨y, hy, by omega, hterm⟩
  rcases mergeEntries_cases n es with ⟨hall, hok⟩ | ⟨pre, e, rest, rfl, hpre, hcase⟩
  · rw [hok]
    refine ⟨⟨h, hQ⟩, fun wm hwm x hx => ?_⟩
    cases hwm
    obtain ⟨y, hy, hxy⟩ := hfound (by have := (hc.index_of_mem hx).1; omega) (hall x hx)
    exact ⟨y, List.mem_of_getElem? hy, hxy⟩
  have hidx : e.index = prev + 1 + pre.length := hc.right.head?_index rfl
  -- Up to the entry in question, the log ends like what it has been sent.
  obtain ⟨hle, hjoin⟩ : prev + pre.length ≤ n.log.contents.length ∧
      lastTag LogEntry.term 0 (n.log.contents.take (prev + pre.length)) =
        lastTag LogEntry.term t pre := by
    rcases hc.before with rfl | ⟨pre', x, rfl, hx⟩
    · simpa using hprev
    · have hmem : x ∈ pre' ++ [x] := by simp
      have hpos := List.length_pos_of_mem hmem
      have hfound := h.lastTag_of_termAt (by omega) (hpre x hmem)
      rw [hx] at hfound
      rw [Linked.lastTag_append]
      exact hfound
  have hrest := (Linked.append_iff.mp hl).2
  -- Appending behind a log that ends there keeps the chain.
  have happend : ∀ rl : RaftLog ι, rl.Chained R → Q rl →
      rl.contents = n.log.contents.take (prev + pre.length) →
      ((rl.append (e :: rest)).2.Chained R ∧ Q (rl.append (e :: rest)).2) ∧
        ∀ x ∈ pre ++ e :: rest, ∃ y ∈ (rl.append (e :: rest)).2.contents,
          y.index = x.index ∧ y.term = x.term := by
    intro rl hrl hQrl hcont
    have hcr : Contiguous (rl.lastLogIndex + 1) (e :: rest) := by
      rw [hrl.lastLogIndex_eq, hcont, List.length_take, Nat.min_eq_left hle,
        show prev + pre.length + 1 = prev + 1 + pre.length by omega]
      exact hc.right
    refine ⟨⟨hrl.append (List.cons_ne_nil _ _) hcr (by rw [hcont, hjoin]; exact hrest),
      hkeeps.append hrl (List.subset_append_right _ _) (List.cons_ne_nil _ _) hcr hQrl⟩,
      fun x hx => ?_⟩
    rw [RaftLog.contents_append hrl.wf (List.cons_ne_nil _ _), hcont]
    rcases List.mem_append.mp hx with hx | hx
    · obtain ⟨hlo, hhi, -⟩ := hc.left.index_of_mem hx
      obtain ⟨y, hy, hxy⟩ := hfound (by omega) (hpre x hx)
      refine ⟨y, List.mem_append_left _ (List.mem_of_getElem? (i := x.index - 1) ?_), hxy⟩
      rw [List.getElem?_take, if_pos (by omega), hy]
    · exact ⟨x, List.mem_append_right _ hx, rfl, rfl⟩
  rcases hcase with ⟨hnone, hok⟩ | ⟨⟨t', hsome, hne⟩, hcut⟩
  · -- The entry is missing, so the log ends right before it.
    rw [h.termAt_eq (by omega), Option.map_eq_none_iff, List.getElem?_eq_none_iff] at hnone
    obtain ⟨hlog, hhas⟩ := happend n.log h hQ (List.take_of_length_le (by omega)).symm
    rw [hok]
    refine ⟨hlog, fun wm hwm => ?_⟩
    cases hwm
    exact hhas
  · -- Another entry is there and gives way.
    obtain ⟨log, hlog, hchained, hcont, hsuf⟩ :=
      h.cut (by omega) (h.lastTag_of_termAt (by omega) hsome).1
    have hQcut : Q log := hkeeps.cut (by simp) hsome hne hlog hsuf hchained hcont hQ
    rw [hidx, show prev + 1 + pre.length - 1 = prev + pre.length by omega] at hcont
    obtain ⟨mem, herr | hok⟩ := mergeEntries_cut hfol hlog hcut
    · rw [herr]
      exact ⟨⟨hchained, hQcut⟩, fun wm hwm => (by cases hwm)⟩
    · obtain ⟨hlog, hhas⟩ := happend log hchained hQcut hcont
      rw [hok]
      refine ⟨hlog, fun wm hwm => ?_⟩
      cases hwm
      exact hhas

omit [DecidableEq ι] [Sized ι] in
theorem linked_received (h : req.Carries (CopiedFor links n.cfg.witness)) :
    Linked LogEntry.term (Copied links n.cfg.witness) req.prevLogTerm (n.received req) := by
  rw [received, ite_stripForWitness]
  exact h.linked.map (LogEntry.keptBy_term _) fun t e he => he.keptBy

/-- **Accepting a request keeps the log a chain**, and what its steps keep. -/
theorem acceptEntries_keeps {Q : RaftLog ι → Prop} (src : Asker ι)
    (h : n.log.Chained (Copied links n.cfg.witness)) (hfol : n.state ≠ .leader)
    (hreq : req.Carries (CopiedFor links n.cfg.witness)) (hadm : n.Admits req)
    (hkeeps : MergeKeeps (Copied links n.cfg.witness) n (n.received req) Q)
    (hcommit : ∀ rl i, rl.Chained (Copied links n.cfg.witness) → Q rl →
      Q (rl.enqueue (.commitIndex i))) (hQ : Q n.log) :
    ((n.acceptEntries src req (n.received req)).log.Chained (Copied links n.cfg.witness) ∧
      Q (n.acceptEntries src req (n.received req)).log) ∧
      ∀ wm, n.mergeEntries (n.received req) = .ok wm → ∀ e ∈ n.received req,
        ∃ x ∈ (n.acceptEntries src req (n.received req)).log.contents,
          x.index = e.index ∧ x.term = e.term := by
  set R := Copied links n.cfg.witness
  have hmerged : ((mergedNode (n.mergeEntries (n.received req))).log.Chained R ∧
      Q (mergedNode (n.mergeEntries (n.received req))).log) ∧
      ∀ wm, n.mergeEntries (n.received req) = .ok wm → ∀ e ∈ n.received req,
        ∃ x ∈ wm.2.log.contents, x.index = e.index ∧ x.term = e.term := by
    rcases eq_or_ne req.entries [] with hnil | hne
    · rw [n.received_eq_nil hnil]
      exact ⟨⟨h, hQ⟩, fun _ _ _ he => (by cases he)⟩
    · refine mergeEntries_keeps h hfol (hreq.contiguous.of_shape (n.received_shape req))
        (linked_received hreq) ?_ hkeeps hQ
      rcases Nat.eq_zero_or_pos req.prevLogIndex with hzero | hpos
      · rw [hzero, (hreq.behind hne).mp hzero]
        exact ⟨Nat.zero_le _, rfl⟩
      · -- A lookup that finds nothing reads as term 0, which the request does not name.
        have hterm := ((prevConflict_eq_none_iff n req).mp hadm.1).resolve_left (by omega)
        cases hta : n.log.termAt req.prevLogIndex with
        | none =>
          rw [hta, Option.getD_none] at hterm
          exact absurd ((hreq.behind hne).mpr hterm.symm) (by omega)
        | some t =>
          rw [hta, Option.getD_some] at hterm
          rw [← hterm]
          exact h.lastTag_of_termAt hpos hta
  obtain ⟨hmerged, hhas⟩ := hmerged
  cases hmerge : n.mergeEntries (n.received req) with
  | error m =>
    rw [hmerge] at hmerged
    rw [acceptEntries, hmerge]
    exact ⟨hmerged, fun wm hwm => (by cases hwm)⟩
  | ok wm =>
    rw [hmerge] at hmerged
    have hchained : wm.2.log.Chained R := hmerged.1
    have hhas := hhas wm hmerge
    obtain ⟨n', hn', -, hlog, -⟩ := acceptEntries_ok src req hmerge
    rw [hn']
    rcases hlog with hlog | ⟨i, hlog⟩ <;> rw [hlog]
    · exact ⟨hmerged, fun _ _ => hhas⟩
    · refine ⟨⟨hchained.enqueue_commitIndex i, hcommit _ i hchained hmerged.2⟩, fun _ _ => ?_⟩
      rw [(hchained.wf.enqueue_commitIndex i).2]
      exact hhas

theorem acceptEntries_chained (src : Asker ι) (h : n.log.Chained (Copied links n.cfg.witness))
    (hfol : n.state ≠ .leader) (hreq : req.Carries (CopiedFor links n.cfg.witness))
    (hadm : n.Admits req) :
    (n.acceptEntries src req (n.received req)).log.Chained (Copied links n.cfg.witness) ∧
      ∀ wm, n.mergeEntries (n.received req) = .ok wm → ∀ e ∈ n.received req,
        ∃ x ∈ (n.acceptEntries src req (n.received req)).log.contents,
          x.index = e.index ∧ x.term = e.term := by
  obtain ⟨⟨hlog, -⟩, hhas⟩ := acceptEntries_keeps (Q := fun _ => True) src h hfol hreq hadm
    ⟨fun _ _ _ _ _ _ _ _ => trivial, fun _ _ _ _ _ => trivial⟩ (fun _ _ _ _ => trivial) trivial
  exact ⟨hlog, hhas⟩

end Node

end Raft
