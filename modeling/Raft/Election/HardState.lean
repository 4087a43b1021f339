import Raft.System.Numbering

/-!
# Terms and votes on their way to disk

A node changes its term and vote in memory and queues the write.  Along the way from
disk through the queue to memory terms never go down, and within one term a vote once
given stays.
-/

namespace Raft

variable {ι : Type} {ops : List (WriteOp ι)} {commits : Bool} {s' : Store ι}

namespace HardState

/-- A later term, or the same term and a vote that is not another one. -/
def Precedes (a b : HardState ι) : Prop :=
  a.currentTerm < b.currentTerm ∨
    a.currentTerm = b.currentTerm ∧ (a.votedFor = none ∨ a.votedFor = b.votedFor)

namespace Precedes

theorem refl (a : HardState ι) : Precedes a a := .inr ⟨rfl, .inr rfl⟩

theorem trans {a b c : HardState ι} (h : Precedes a b) (h' : Precedes b c) : Precedes a c := by
  rcases h with h | ⟨hterm, hvote⟩
  · rcases h' with h' | ⟨hterm', -⟩
    · exact .inl (h.trans h')
    · exact .inl (hterm' ▸ h)
  · rcases h' with h' | ⟨hterm', hvote'⟩
    · exact .inl (hterm ▸ h')
    · refine .inr ⟨hterm.trans hterm', ?_⟩
      rcases hvote with hvote | hvote
      · exact .inl hvote
      · rcases hvote' with hvote' | hvote'
        · exact .inl (hvote.trans hvote')
        · exact .inr (hvote.trans hvote')

theorem term_le {a b : HardState ι} (h : Precedes a b) : a.currentTerm ≤ b.currentTerm := by
  rcases h with h | ⟨h, -⟩ <;> omega

theorem vote_eq {term : Nat} {c c' : ι} (h : Precedes ⟨term, some c⟩ ⟨term, some c'⟩) : c = c' := by
  rcases h with h | ⟨-, h | h⟩
  · exact absurd h (lt_irrefl _)
  · cases h
  · exact Option.some.inj h

end Precedes

theorem vote_unique {l : List (HardState ι)} (h : l.Pairwise Precedes) {term : Nat} {c c' : ι}
    (hc : ⟨term, some c⟩ ∈ l) (hc' : ⟨term, some c'⟩ ∈ l) : c = c' := by
  obtain ⟨i, hi, hci⟩ := List.mem_iff_getElem.mp hc
  obtain ⟨j, hj, hcj⟩ := List.mem_iff_getElem.mp hc'
  rw [List.pairwise_iff_getElem] at h
  rcases lt_trichotomy i j with hij | rfl | hij
  · exact (hci ▸ hcj ▸ h i j hi hj hij : Precedes _ _).vote_eq
  · rw [hci] at hcj
    simpa using hcj
  · exact (hci ▸ hcj ▸ h j i hj hi hij : Precedes _ _).vote_eq.symm

end HardState

open HardState

/-- The terms and votes among some operations. -/
def queuedHardStates (ops : List (WriteOp ι)) : List (HardState ι) :=
  ops.filterMap fun op => match op.kind with
    | .hardState hs => some hs
    | _ => none

theorem queuedHardStates_append (ops ops' : List (WriteOp ι)) :
    queuedHardStates (ops ++ ops') = queuedHardStates ops ++ queuedHardStates ops' :=
  List.filterMap_append ..

theorem queuedHardStates_eq_nil (h : ∀ op ∈ ops, op.kind.isHardState = false) :
    queuedHardStates ops = [] := by
  refine List.filterMap_eq_nil_iff.mpr fun op hop => ?_
  have := h op hop
  cases hk : op.kind <;> simp_all [WriteKind.isHardState]

theorem mem_queuedHardStates {hs : HardState ι} :
    hs ∈ queuedHardStates ops ↔ ∃ op ∈ ops, op.kind = .hardState hs := by
  simp only [queuedHardStates, List.mem_filterMap]
  constructor
  · rintro ⟨op, hop, hk⟩
    refine ⟨op, hop, ?_⟩
    cases h : op.kind <;> simp_all
  · rintro ⟨op, hop, hk⟩
    exact ⟨op, hop, by rw [hk]⟩

/-- An operation leaves the term and vote on disk alone, or is about them. -/
theorem exec_hardState {s : Store ι} {op : WriteOp ι} (h : s.exec commits op.kind = some s') :
    [s'.hs].Sublist (s.hs :: queuedHardStates [op]) ∧
      ∀ hs, op.kind = .hardState hs → s'.hs = hs := by
  cases hk : op.kind with
  | hardState =>
    rw [hk] at h
    cases h
    simp [queuedHardStates, hk, Store.saveHardState]
  | append es =>
    rw [hk] at h
    cases h
    simp [Store.appendLogEntries]
  | truncatePrefix i =>
    rw [hk] at h
    cases h
    unfold Store.truncatePrefix
    split_ifs <;> simp
  | commitIndex i =>
    rw [hk] at h
    cases h
    split_ifs <;> simp [Store.saveCommitIndex]
  | truncateSuffix i =>
    rw [hk] at h
    simp only [Store.exec, Store.truncateSuffix] at h
    split_ifs at h <;> (cases h; simp)

theorem execAll_hardState {s : Store ι} (h : StorageWriter.execAll commits s ops = some s') :
    ∃ before, s.hs :: queuedHardStates ops = before ++ [s'.hs] := by
  induction ops generalizing s with
  | nil =>
    cases h
    exact ⟨[], rfl⟩
  | cons op ops ih =>
    obtain ⟨s₁, hs₁, hrest⟩ := Option.bind_eq_some_iff.mp h
    obtain ⟨before, hbefore⟩ := ih hrest
    obtain ⟨hsub, hset⟩ := exec_hardState hs₁
    -- what was written last is the last of the list
    cases hk : op.kind with
    | hardState hs =>
      refine ⟨s.hs :: before, ?_⟩
      rw [hset hs hk] at hbefore
      simpa [queuedHardStates, hk] using hbefore
    | _ =>
      refine ⟨before, ?_⟩
      have hnone : queuedHardStates [op] = [] := by simp [queuedHardStates, hk]
      rw [hnone] at hsub
      have hsame : s₁.hs = s.hs := by simpa using hsub
      rw [hsame] at hbefore
      simpa [queuedHardStates, hk] using hbefore

namespace Node

/-- What is on disk, what is queued and what is in memory come in order. -/
def Aligned (n : Node ι) : Prop :=
  (n.log.w.storage.hs :: queuedHardStates n.log.w.queue ++ [n.hardState]).Pairwise Precedes

namespace Aligned

variable {n n' : Node ι}

theorem of_queues (h : n.Aligned) (hq : n.log.Queues n'.log ops)
    (hops : ∀ op ∈ ops, op.kind.isHardState = false) (hhs : n'.hardState = n.hardState) :
    n'.Aligned := by
  unfold Aligned
  rw [hq.w, queuedHardStates_append, queuedHardStates_eq_nil hops, List.append_nil, hhs]
  exact h

theorem disk_precedes (h : n.Aligned) : Precedes n.log.w.storage.hs n.hardState := by
  unfold Aligned at h
  rw [List.cons_append, List.pairwise_cons] at h
  exact h.1 _ (by simp)

theorem enqueue (h : n.Aligned) (hopen : n.log.w.closed = false)
    (hlog : n'.log = n.log.enqueue (.hardState n'.hardState))
    (hle : Precedes n.hardState n'.hardState) : n'.Aligned := by
  unfold Aligned at h ⊢
  rw [hlog, (RaftLog.Queues.of_enqueue hopen _).w, queuedHardStates_append]
  have hone : queuedHardStates
      [(⟨n.log.nextSeq + 1, .hardState n'.hardState, n.log.queuedDurable⟩ : WriteOp ι)] =
        [n'.hardState] := rfl
  rw [hone]
  rw [List.pairwise_append] at h ⊢
  obtain ⟨hbefore, -, hmem⟩ := h
  have hlast : ∀ a ∈ n.log.w.storage.hs :: queuedHardStates n.log.w.queue,
      Precedes a n'.hardState := fun a ha => (hmem a ha _ (by simp)).trans hle
  refine ⟨?_, by simp, ?_⟩
  · rw [← List.cons_append, List.pairwise_append]
    exact ⟨hbefore, by simp, fun a ha b hb => List.mem_singleton.mp hb ▸ hlast a ha⟩
  · rintro a ha b hb
    obtain rfl := List.mem_singleton.mp hb
    rw [← List.cons_append, List.mem_append] at ha
    rcases ha with ha | ha
    · exact hlast a ha
    · obtain rfl := List.mem_singleton.mp ha
      exact .refl _

theorem execAll {rest : List (WriteOp ι)} (h : n.Aligned) (hqueue : n.log.w.queue = ops ++ rest)
    (hexec : StorageWriter.execAll commits n.log.w.storage ops = some s') :
    (s'.hs :: queuedHardStates rest ++ [n.hardState]).Pairwise Precedes ∧
      ∀ hs ∈ n.log.w.storage.hs :: queuedHardStates ops, Precedes hs s'.hs := by
  obtain ⟨before, hbefore⟩ := execAll_hardState hexec
  unfold Aligned at h
  rw [hqueue, queuedHardStates_append, ← List.cons_append, hbefore, List.append_assoc,
    List.append_assoc, List.pairwise_append] at h
  refine ⟨by simpa using h.2.1, fun hs hmem => ?_⟩
  rw [hbefore, List.mem_append] at hmem
  rcases hmem with hmem | hmem
  · exact h.2.2 hs hmem _ (by simp)
  · exact List.mem_singleton.mp hmem ▸ .refl _

end Aligned

end Node

end Raft
