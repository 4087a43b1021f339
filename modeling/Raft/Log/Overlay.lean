import Raft.Log.StableIndex
import Raft.Log.TermRuns

/-!
# What the overlay answers

The overlay keeps a log three times over: in an index of term runs, in the segments that wait
for their writes, and in storage.  However the calls of the event loop have cut and extended
them, its answers are those of a walk over the entries themselves.
-/

namespace Raft

variable {ι : Type}

namespace PlainLog

variable (p : PlainLog ι)

def walkDown (term : Nat) : Nat → Nat
  | 0 => 0
  | i + 1 => if (p.entryAt i).map (·.term) = some term then walkDown term i else i + 1

/-- Where the term at an index begins, or 0 when there is no entry. -/
def runStart (i : Nat) : Nat :=
  match p.entryAt i with
  | none => 0
  | some e => p.walkDown e.term i

/-- The index of the last entry of a term; without entries, the base still shows its own. -/
def lastIndexOfTerm (term : Nat) : Option Nat :=
  match p.entries.reverse.find? (·.term = term) with
  | some e => some e.index
  | none =>
    if p.entries = [] ∧ p.base.lastIncludedIndex ≠ 0 ∧ p.base.lastIncludedTerm = term then
      some p.base.lastIncludedIndex
    else none

def slice (lo hi : Nat) : Option (List (LogEntry ι)) :=
  if lo < hi ∧ lo < (p.entries.head?.map (·.index)).getD 1 then none
  else some ((p.entries.filter (lo ≤ ·.index)).filter (·.index < hi))

end PlainLog

namespace RaftLog

/-- The overlay answers as the entries do, and what waits for its write is their end. -/
structure Faithful [Sized ι] (rl : RaftLog ι) (p : PlainLog ι) : Prop where
  termAt : ∀ i, rl.termAt i = p.termAt i
  termRunStart : ∀ i, rl.termRunStart i = p.runStart i
  lastIndexOfTerm : ∀ term, rl.lastIndexOfTerm term = p.lastIndexOfTerm term
  entries : ∀ lo hi, rl.entries lo hi = p.slice lo hi
  last : ∀ e, p.entries.getLast? = some e → rl.last = e.index
  contiguous : ∃ f, Contiguous f (flat rl.segs)
  segs : flat rl.segs <:+ p.entries
  unstableBytes : rl.unstableBytes = commandBytes (flat rl.segs)

variable {rl : RaftLog ι} {p : PlainLog ι}

/-! ## The size of what waits -/

section Weighed

variable [Sized ι]

theorem segBytes_eq (segs : List (UnstableSeg ι)) : segBytes segs = commandBytes (flat segs) := by
  induction segs with
  | nil => rfl
  | cons s segs ih =>
    simp only [segBytes, commandBytes, flat, List.map_cons, List.sum_cons, List.flatMap_cons,
      List.map_append, List.sum_append] at ih ⊢
    rw [ih]

/-- The running total is the size of the segments. -/
def Weighed (rl : RaftLog ι) : Prop := rl.unstableBytes = segBytes rl.segs

theorem weighed_of_new {s : Store ι} {batch commits : Bool} (h : new s batch commits = some rl) :
    rl.Weighed := by
  unfold new at h
  dsimp only at h
  split_ifs at h
  · split at h
    · cases h
    · split at h <;> cases h
      rfl
  · cases h
    rfl

section

variable (h : rl.Weighed)

include h

theorem Weighed.shrinkSegs (segs : List (UnstableSeg ι)) : (rl.shrinkSegs segs).Weighed := by
  unfold Weighed at h ⊢
  simp only [RaftLog.shrinkSegs, h]
  omega

theorem Weighed.truncateSuffix {i : Nat} {rl' : RaftLog ι} (hcut : rl.truncateSuffix i = some rl') :
    rl'.Weighed := by
  obtain ⟨t, -, rfl⟩ := Option.map_eq_some_iff.mp hcut
  split_ifs <;> exact Weighed.shrinkSegs h _

theorem Weighed.truncatePrefix (i : Nat) : (rl.truncatePrefix i).Weighed := by
  unfold RaftLog.truncatePrefix
  split_ifs
  · exact h
  all_goals exact Weighed.shrinkSegs h _

theorem Weighed.stabilize (d : WriteDone) : (rl.stabilize d).Weighed := by
  unfold RaftLog.stabilize
  split_ifs
  · exact h
  · exact Weighed.shrinkSegs h _

theorem Weighed.installSnapshot {position : SnapshotMeta} {rl' : RaftLog ι}
    (hinst : rl.installSnapshot position = some rl') : rl'.Weighed := by
  obtain ⟨kept, hkept, rfl⟩ := Option.map_eq_some_iff.mp hinst
  have hw : kept.Weighed := by
    split_ifs at hkept
    · exact Option.some.inj hkept ▸ h.truncatePrefix _
    · exact h.truncateSuffix hkept
    · exact Option.some.inj hkept ▸ h
  dsimp only
  split_ifs <;> exact hw

theorem Weighed.step (call : LogCall ι) : (call.step rl).Weighed := by
  cases call with
  | append es =>
    show (rl.append es).2.Weighed
    unfold RaftLog.append
    split
    · unfold Weighed at h ⊢
      simp [RaftLog.enqueue, segBytes, h]
    · exact h
  | truncateSuffix i =>
    show ((rl.truncateSuffix i).getD rl).Weighed
    cases hcut : rl.truncateSuffix i with
    | none => exact h
    | some rl' => exact h.truncateSuffix hcut
  | truncatePrefix i => exact h.truncatePrefix i
  | localSnapshot position trailing => exact h.truncatePrefix (keepFrom ..)
  | installSnapshot position =>
    show ((rl.installSnapshot position).getD rl).Weighed
    cases hinst : rl.installSnapshot position with
    | none => exact h
    | some rl' => exact h.installSnapshot hinst
  | complete =>
    show rl.complete.Weighed
    unfold RaftLog.complete
    split
    · exact h
    · refine Weighed.stabilize ?_ _
      exact h
  | _ => exact h

theorem Weighed.run (calls : List (LogCall ι)) : (LogCall.run rl calls).Weighed := by
  induction calls generalizing rl with
  | nil => exact h
  | cons call calls ih => exact ih (h.step call)

end

end Weighed

/-! ## The answers -/

namespace Refines

variable (h : rl.Refines p)

include h

theorem entryAt_eq {i : Nat} (hi : rl.first ≤ i) : p.entryAt i = rl.contents[i - rl.first]? := by
  rw [h.contents]
  exact Contiguous.find?_index (h.contents ▸ h.wf.contiguous) hi

theorem entryAt_below {i : Nat} (hi : i < rl.first) : p.entryAt i = none :=
  Contiguous.find?_index_of_lt (h.contents ▸ h.wf.contiguous) hi

theorem termRunStart_eq (i : Nat) : rl.termRunStart i = p.runStart i := by
  unfold PlainLog.runStart
  by_cases hin : rl.first ≠ 0 ∧ rl.first ≤ i ∧ i ≤ rl.last
  · obtain ⟨hf, hlo, hhi⟩ := hin
    obtain ⟨t, hfirst, hle, hsame, hdiff⟩ := h.wf.termRunStart_spec hf hlo hhi
    -- the walk ends where the run begins, from wherever in the run it sets out
    have hwalk : ∀ j, rl.termRunStart i ≤ j → j ≤ i → p.walkDown t j = rl.termRunStart i := by
      intro j hj
      induction j, hj using Nat.le_induction with
      | base =>
        intro _
        obtain ⟨k, hk⟩ := Nat.exists_eq_succ_of_ne_zero (show rl.termRunStart i ≠ 0 by omega)
        rw [hk, PlainLog.walkDown, if_neg]
        rcases Nat.lt_or_ge rl.first (rl.termRunStart i) with hgt | hge
        · rw [h.entryAt_eq (by omega)]
          simpa [hk] using hdiff hgt
        · simp [h.entryAt_below (i := k) (by omega)]
      | succ j hj ih =>
        intro hji
        rw [PlainLog.walkDown, h.entryAt_eq (by omega), if_pos (hsame j hj (by omega)), ih (by omega)]
    have hterm := hsame i hle le_rfl
    rw [h.entryAt_eq hlo]
    obtain ⟨e, he, rfl⟩ := Option.map_eq_some_iff.mp hterm
    rw [he]
    exact (hwalk i hle le_rfl).symm
  · have hnone : p.entryAt i = none := by
      by_cases hnil : rl.contents = []
      · rw [PlainLog.entryAt, ← h.contents, hnil]
        rfl
      rcases Nat.lt_or_ge i rl.first with hlt | hge
      · exact h.entryAt_below hlt
      · have := h.wf.first_eq_zero.not.mpr hnil
        have := h.wf.last_add_one hnil
        rw [h.entryAt_eq hge, List.getElem?_eq_none (by omega)]
    rw [hnone]
    by_cases hbelow : rl.first = 0 ∨ i < rl.first
    · exact h.wf.termRunStart_below hbelow
    · unfold RaftLog.termRunStart
      split
      · rfl
      · exact if_pos (by omega)

theorem lastIndexOfTerm_eq (t : Nat) : rl.lastIndexOfTerm t = p.lastIndexOfTerm t := by
  simp only [RaftLog.lastIndexOfTerm, PlainLog.lastIndexOfTerm, h.wf.lastOfTerm_eq,
    h.wf.first_eq_zero, h.contents, h.base]
  cases p.entries.reverse.find? (·.term = t) <;> rfl

theorem entries_eq_slice (lo hi : Nat) : rl.entries lo hi = p.slice lo hi := by
  have hc : Contiguous rl.first p.entries := h.contents ▸ h.wf.contiguous
  unfold PlainLog.slice
  rcases Nat.lt_or_ge lo hi with hlt | hge
  swap
  · have hempty : (p.entries.filter (lo ≤ ·.index)).filter (·.index < hi) = [] := by
      rw [List.filter_filter, List.filter_eq_nil_iff]
      intro e _
      simp
      omega
    rw [if_neg (by omega), hempty]
    exact if_pos (by omega)
  by_cases hnil : rl.contents = []
  · have hlast := h.wf.last_eq_zero hnil
    rw [← h.contents, hnil]
    by_cases hzero : lo < 1
    · rw [if_pos ⟨hlt, hzero⟩]
      exact (if_neg (by omega)).trans (if_pos (.inl (h.wf.first_eq_zero.mpr hnil)))
    · rw [if_neg fun hbefore => hzero hbefore.2]
      exact if_pos (by omega)
  have hlast := h.wf.last_add_one hnil
  have hfirst := h.wf.first_le_last hnil
  have hhead : (p.entries.head?.map (·.index)).getD 1 = rl.first := by
    rw [← h.contents] at hc ⊢
    obtain ⟨e, rest, hcons⟩ := List.exists_cons_of_ne_nil hnil
    rw [hcons] at hc ⊢
    exact hc.head?_index rfl
  rw [hhead]
  by_cases hbefore : lo < rl.first
  · rw [if_pos ⟨hlt, hbefore⟩]
    exact (if_neg (by omega)).trans (if_pos (.inr hbefore))
  have hdrop := hc.drop (lo - rl.first)
  rw [Nat.add_sub_of_le (Nat.le_of_not_lt hbefore)] at hdrop
  rw [if_neg fun hcon => hbefore hcon.2, hc.filter_ge, hdrop.filter_lt, ← h.contents]
  by_cases hin : lo ≤ rl.last
  · have hread := h.segmented.entries_eq h.wf (h.wf.first_pos hnil).ne' (Nat.le_of_not_lt hbefore)
      (show lo < min hi (rl.last + 1) by omega) (min_le_right ..)
    have hclamp : rl.entries lo hi = rl.entries lo (min hi (rl.last + 1)) := by
      simp only [RaftLog.entries, min_assoc, min_self]
    rw [hclamp, hread, Option.some.injEq, List.take_eq_take_iff, List.length_drop]
    omega
  · rw [List.drop_of_length_le (by omega), List.take_nil]
    exact if_pos (by omega)

/-- **A log that shows the plain one answers like it.** -/
theorem faithful [Sized ι] (hweighed : rl.Weighed) : rl.Faithful p where
  termAt := h.termAt_eq
  termRunStart := h.termRunStart_eq
  lastIndexOfTerm := h.lastIndexOfTerm_eq
  entries := h.entries_eq_slice
  last e he := by
    obtain ⟨es, hes⟩ := List.getLast?_eq_some_iff.mp he
    have hc := h.wf.contiguous
    have hlast := h.wf.last_add_one (by simp [h.contents, hes])
    rw [h.contents, hes] at hc hlast
    rw [hc.index_concat]
    exact Nat.succ.inj (hlast.trans (by simp [Nat.add_assoc]))
  contiguous := h.segmented.contiguous_flat h.wf
  segs := by
    obtain ⟨stable, hsplit, -⟩ := h.segmented.split
    exact ⟨stable, by rw [← hsplit, h.contents]⟩
  unstableBytes := by rw [hweighed, segBytes_eq]

end Refines

end RaftLog

namespace LogCall

variable [Sized ι]

/-- **The overlay answers as the log does** after any calls that cut suffixes within the log. -/
theorem faithful_run {s : Store ι} (hs : s.Wf) {batch commits : Bool} {rl : RaftLog ι}
    (hnew : RaftLog.new s batch commits = some rl) {calls : List (LogCall ι)}
    (hmade : AllMade rl calls) :
    (run rl calls).Faithful (plainRun ⟨RaftLog.snapPosition s, s.entries⟩ calls) :=
  ((RaftLog.Refines.of_fresh (.of_new hs hnew)).run hmade).faithful
    ((RaftLog.weighed_of_new hnew).run calls)

/-- An entry is replaced by one of a later term while its write is under way. -/
theorem faithful_replaced :
    (run ((RaftLog.new (Store.empty : Store Nat) true true).get rfl)
      [.append [⟨1, 1, .noop⟩, ⟨2, 1, .user [1]⟩], .truncateSuffix 2, .execute,
        .append [⟨2, 2, .user [2]⟩], .complete]).Faithful
      (plainRun ⟨⟨0, 0⟩, []⟩ [.append [⟨1, 1, .noop⟩, ⟨2, 1, .user [1]⟩], .truncateSuffix 2,
        .execute, .append [⟨2, 2, .user [2]⟩], .complete]) :=
  faithful_run (s := Store.empty) ⟨Contiguous.nil _, fun h => absurd rfl h⟩ rfl
    ⟨⟨by decide, (Contiguous.singleton ⟨1, 1, .noop⟩).append (Contiguous.singleton _)⟩,
      ⟨by decide, by decide, by decide⟩, trivial, ⟨by decide, Contiguous.singleton _⟩, trivial,
      trivial⟩

end LogCall

end Raft
