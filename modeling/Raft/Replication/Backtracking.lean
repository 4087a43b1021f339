import Mathlib.Data.Finset.Card
import Mathlib.Data.List.Perm.Basic
import Raft.Log.TermRuns
import Raft.Replication.FollowerCommit

/-!
# Finding where two logs meet

A leader that appends behind an index where the follower has another entry, or none, is
rejected with a hint: the index behind the follower's log, or the term it has there and
where that begins.  The leader resumes behind its own last entry of that term, or at the
hint, but never at an index the peer has acknowledged.

Most rejections lead back.  One that was overtaken by an acknowledgement does not, nor does
one from a follower that has compacted the index away; and a heartbeat before an entry the
leader has compacted away names no term, so that a follower with the same log rejects it.
-/

namespace Raft

variable {ι : Type}

/-! ## Logs of one group -/

instance LogMatching.decidable (hist hist' : List Nat) : Decidable (LogMatching hist hist') :=
  decidable_of_iff (∀ i < hist.length + 1, ∀ t ∈ hist, histTerm hist i = some t →
    histTerm hist' i = some t → ∀ j < i + 1, histTerm hist j = histTerm hist' j)
    ⟨fun h i t hi hi' j hj => h i (by have := histTerm_bounds hi; omega) t (mem_of_histTerm hi) hi hi'
      j (by omega), fun h i _ t _ hi hi' j hj => h i t hi hi' j (by omega)⟩

/-- Two logs of one group match, and each of them matches the log in which the entries of a term
were created. -/
structure Kindred (hist hist' : List Nat) : Prop where
  matching : LogMatching hist hist'
  origin : ∀ t, ∃ created, LogMatching created hist ∧ LogMatching created hist' ∧
    ∀ i, histTerm hist i = some t ∨ histTerm hist' i = some t → histTerm created i = some t

namespace Kindred

variable {hist hist' : List Nat} {i j t : Nat}

theorem symm (h : Kindred hist hist') : Kindred hist' hist := by
  refine ⟨fun i t hi hi' j hj => (h.matching i t hi' hi j hj).symm, fun t => ?_⟩
  obtain ⟨created, hm, hm', hall⟩ := h.origin t
  exact ⟨created, hm', hm, fun i hi => hall i hi.symm⟩

theorem earlier (h : Kindred hist hist') (hi : histTerm hist i = some t)
    (hj : histTerm hist' j = some t) (hle : j ≤ i) : histTerm hist j = some t := by
  obtain ⟨created, hm, -, hall⟩ := h.origin t
  rw [← hm i t (hall i (.inl hi)) hi j hle]
  exact hall j (.inr hj)

end Kindred

section Ordered

variable {hist : List Nat} {i j k t u : Nat}

theorem exists_histTerm (hpos : 0 < i) (hle : i ≤ hist.length) : ∃ t, histTerm hist i = some t := by
  refine ⟨hist[i - 1], ?_⟩
  rw [histTerm, if_neg (by omega), List.getElem?_eq_getElem]

theorem histTerm_le (hord : hist.Pairwise (· ≤ ·)) (hij : i ≤ j) (hi : histTerm hist i = some t)
    (hj : histTerm hist j = some u) : t ≤ u := by
  rcases hij.eq_or_lt with rfl | hlt
  · exact (Option.some.inj (hi.symm.trans hj)).le
  · have hpos := (histTerm_bounds hi).1
    rw [histTerm, if_neg (by omega)] at hi hj
    obtain ⟨-, rfl⟩ := List.getElem?_eq_some_iff.mp hi
    obtain ⟨-, rfl⟩ := List.getElem?_eq_some_iff.mp hj
    exact List.pairwise_iff_getElem.mp hord _ _ _ _ (by omega)

theorem histTerm_between (hord : hist.Pairwise (· ≤ ·)) (hi : histTerm hist i = some t)
    (hk : histTerm hist k = some t) (hij : i ≤ j) (hjk : j ≤ k) : histTerm hist j = some t := by
  have hib := histTerm_bounds hi
  have hkb := histTerm_bounds hk
  obtain ⟨u, hu⟩ : ∃ u, histTerm hist j = some u := exists_histTerm (by omega) (by omega)
  have hle := histTerm_le hord hij hi hu
  have hge := histTerm_le hord hjk hu hk
  rw [hu, Nat.le_antisymm hge hle]

end Ordered

/-! ## One rejection -/

namespace Node

def Rejects (f : Node ι) (req : AppendEntriesRequest ι) (resp : AppendEntriesResponse) : Prop :=
  resp.success = false ∧ f.prevConflict req = some (resp.conflictIndex, resp.conflictTerm)

/-- Where a follower says a term begins, or the index itself at the boundary of what it has. -/
def termFloor (f : Node ι) (index : Nat) : Nat :=
  if f.log.termRunStart index = 0 then index else f.log.termRunStart index

variable {hist : List Nat} {req : AppendEntriesRequest ι}

theorem Rejects.cases {f : Node ι} {resp : AppendEntriesResponse} (h : f.Rejects req resp)
    (htail : f.log.TailOf hist) :
    0 < req.prevLogIndex ∧
      (f.log.termAt req.prevLogIndex = none ∧ resp.conflictTerm = 0 ∧
          resp.conflictIndex = f.log.lastLogIndex + 1 ∨
        ∃ t, f.log.termAt req.prevLogIndex = some t ∧ 0 < t ∧ t ≠ req.prevLogTerm ∧
          resp.conflictTerm = t ∧ resp.conflictIndex = f.termFloor req.prevLogIndex) := by
  obtain ⟨-, h⟩ := h
  unfold prevConflict at h
  dsimp only at h
  split at h
  · rename_i hmis
    refine ⟨hmis.1, ?_⟩
    cases hta : f.log.termAt req.prevLogIndex with
    | none =>
      rw [hta, Option.getD_none, if_pos rfl] at h
      obtain ⟨hidx, hterm⟩ := Prod.mk.inj (Option.some.inj h)
      exact .inl ⟨rfl, hterm.symm, hidx.symm⟩
    | some t =>
      have hpos := htail.histTerm_pos (htail.termAt_some hmis.1 hta)
      rw [hta, Option.getD_some] at hmis
      rw [hta, Option.getD_some, if_neg (by omega)] at h
      obtain ⟨hidx, hterm⟩ := Prod.mk.inj (Option.some.inj h)
      exact .inr ⟨t, rfl, hpos, hmis.2, hterm.symm, hidx.symm⟩
  · cases h

theorem termFloor_spec {f : Node ι} {i t : Nat} (h : f.log.TailOf hist) (hi : 0 < i)
    (ht : f.log.termAt i = some t) :
    0 < f.termFloor i ∧ f.termFloor i ≤ i ∧
      (∀ j, f.termFloor i ≤ j → j ≤ i → histTerm hist j = some t) ∧
      (f.log.snapMeta.lastIncludedIndex < f.termFloor i - 1 →
        histTerm hist (f.termFloor i - 1) ≠ some t) := by
  have hterm := h.termAt_some hi ht
  by_cases hin : f.log.first ≠ 0 ∧ f.log.first ≤ i ∧ i ≤ f.log.last
  · obtain ⟨hf, hlo, hhi⟩ := hin
    obtain ⟨hfirst, hle, hsame, hdiff⟩ := h.termRunStart_spec hf hlo hhi
    have hjoined := h.joined hf
    have hfloor : f.termFloor i = f.log.termRunStart i := if_neg (by omega)
    rw [hfloor, ← hterm]
    exact ⟨by omega, hle, hsame, fun hgt => hdiff (by omega)⟩
  · -- what is found outside the log is the boundary
    have hsnap : i = f.log.snapMeta.lastIncludedIndex := by
      rw [RaftLog.termAt, if_neg (by omega)] at ht
      split_ifs at ht with hb hout
      · exact hb
      · omega
    have hbelow : f.log.first = 0 ∨ i < f.log.first := by
      by_contra hno
      rw [not_or] at hno
      have := h.lastLogIndex_of_first hno.1
      have := histTerm_bounds hterm
      omega
    have hfloor : f.termFloor i = i := if_pos (h.wf.termRunStart_below hbelow)
    rw [hfloor]
    refine ⟨hi, le_rfl, fun j hj hj' => ?_, fun hgt => by omega⟩
    rw [Nat.le_antisymm hj' hj, hterm]

structure Facing (l f : Node ι) (histL histF : List Nat) : Prop where
  leader : l.log.TailOf histL
  follower : f.log.TailOf histF
  kindred : Kindred histL histF
  ordered : histF.Pairwise (· ≤ ·)

/-- A rejection leads back, behind what the peer has acknowledged, and not past the first
difference. -/
structure Converges (l : Node ι) (peer : ι) (histL histF : List Nat) (req : AppendEntriesRequest ι)
    (resp : AppendEntriesResponse) : Prop where
  back : l.backtrackTo peer resp < req.prevLogIndex + 1 ∨
    l.log.canDescribe (l.backtrackTo peer resp - 1) = false
  above : lookup l.matchIndex peer < l.backtrackTo peer resp
  stops : l.log.canDescribe (l.backtrackTo peer resp - 1) = true →
    ∃ j ≤ l.backtrackTo peer resp, histTerm histL j ≠ histTerm histF j

/-- The follower has the index, the peer has not acknowledged it, and the leader holds nothing
of the follower's term from there on. -/
structure Informative (l f : Node ι) (peer : ι) (req : AppendEntriesRequest ι) : Prop where
  held : f.log.termAt req.prevLogIndex = none → req.prevLogIndex ≤ f.log.lastLogIndex →
    l.log.canDescribe f.log.lastLogIndex = false
  fresh : (f.log.termAt req.prevLogIndex = none → f.log.lastLogIndex < req.prevLogIndex) →
    lookup l.matchIndex peer < req.prevLogIndex ∨ l.log.canDescribe req.prevLogIndex = false
  known : ∀ t i, f.log.termAt req.prevLogIndex = some t → l.log.lastIndexOfTerm t = some i →
    i < req.prevLogIndex

theorem first_le_of_canDescribe {l : Node ι} {i : Nat} (h : l.log.TailOf hist)
    (hdesc : l.log.canDescribe i = true) (hi : i < hist.length) :
    l.log.first ≠ 0 ∧ l.log.first ≤ i + 1 := by
  unfold RaftLog.canDescribe at hdesc
  rcases eq_or_ne l.log.first 0 with hz | hf
  · have hlen := h.length_of_first hz
    split_ifs at hdesc with hsnap hzero
    · omega
    · rcases of_decide_eq_true hdesc with h1 | h1 <;> omega
    · exact absurd hz (of_decide_eq_true hdesc).1
  · have hjoined := h.joined hf
    refine ⟨hf, ?_⟩
    split_ifs at hdesc with hsnap hzero
    · omega
    · rcases of_decide_eq_true hdesc with h1 | h1 <;> omega
    · have := (of_decide_eq_true hdesc).2.1
      omega

section Rejection

variable {l f : Node ι} {peer : ι} {histL histF : List Nat} {req : AppendEntriesRequest ι}
  {resp : AppendEntriesResponse}

/-- Where the leader resumes: behind a short log, behind its own entries of the term, or where
it begins. -/
inductive Resumes (l f : Node ι) (prev : Nat) : Nat → Prop
  | short (h : f.log.termAt prev = none) : Resumes l f prev (f.log.lastLogIndex + 1)
  | last {t i : Nat} (ht : f.log.termAt prev = some t) (hi : l.log.lastIndexOfTerm t = some i) :
      Resumes l f prev (i + 1)
  | floor {t : Nat} (ht : f.log.termAt prev = some t) (hi : l.log.lastIndexOfTerm t = none) :
      Resumes l f prev (f.termFloor prev)

theorem Rejects.resumes (l : Node ι) (peer : ι) (h : f.Rejects req resp) (htail : f.log.TailOf histF) :
    0 < req.prevLogIndex ∧ ∃ hint, 0 < hint ∧ Resumes l f req.prevLogIndex hint ∧
      l.backtrackTo peer resp = max hint (lookup l.matchIndex peer + 1) := by
  obtain ⟨hpos, ⟨hnone, hct, hci⟩ | ⟨t, ht, htpos, -, hct, hci⟩⟩ := h.cases htail
  · refine ⟨hpos, _, Nat.succ_pos _, .short hnone, ?_⟩
    rw [backtrackTo, hct, hci]
    simp
  · refine ⟨hpos, ?_⟩
    cases hi : l.log.lastIndexOfTerm t with
    | some i =>
      refine ⟨_, Nat.succ_pos _, .last ht hi, ?_⟩
      rw [backtrackTo, hct, if_pos htpos.ne', hi]
      simp
    | none =>
      have hfloor := (termFloor_spec htail hpos ht).1
      refine ⟨_, hfloor, .floor ht hi, ?_⟩
      rw [backtrackTo, hct, if_pos htpos.ne', hi, hci, max_eq_left (b := 1) hfloor]

theorem back_iff (describes : Nat → Bool) (hint : Nat) {acked prev : Nat} (hacked : acked ≤ prev) :
    (max hint (acked + 1) < prev + 1 ∨ describes (max hint (acked + 1) - 1) = false) ↔
      if hint ≤ prev then acked < prev ∨ describes prev = false
      else describes (hint - 1) = false := by
  split_ifs with hle
  · rcases hacked.lt_or_eq with hlt | rfl
    · exact iff_of_true (.inl (by omega)) (.inl hlt)
    · rw [show max hint (acked + 1) = acked + 1 by omega]
      simp
  · rw [show max hint (acked + 1) = hint by omega]
    exact or_iff_right (by omega)

theorem Informative.back (hinf : l.Informative f peer req) (htail : f.log.TailOf histF) {hint : Nat}
    (hpos : 0 < req.prevLogIndex) (hresumes : Resumes l f req.prevLogIndex hint) :
    if hint ≤ req.prevLogIndex then
      lookup l.matchIndex peer < req.prevLogIndex ∨ l.log.canDescribe req.prevLogIndex = false
    else l.log.canDescribe (hint - 1) = false := by
  cases hresumes with
  | short hnone =>
    split_ifs with hle
    · exact hinf.fresh fun _ => by omega
    · exact hinf.held hnone (by omega)
  | @last t i ht hi =>
    have hlt := hinf.known t i ht hi
    rw [if_pos (by omega)]
    exact hinf.fresh fun hnone => by rw [ht] at hnone; cases hnone
  | @floor t ht _ =>
    rw [if_pos (termFloor_spec htail hpos ht).2.1]
    exact hinf.fresh fun hnone => by rw [ht] at hnone; cases hnone

theorem Informative.stops (h : Facing l f histL histF) (hlast : req.prevLogIndex ≤ histL.length)
    (hinf : l.Informative f peer req) {hint : Nat} (hpos : 0 < req.prevLogIndex)
    (hresumes : Resumes l f req.prevLogIndex hint)
    (hdesc : l.log.canDescribe (max hint (lookup l.matchIndex peer + 1) - 1) = true)
    (hback : max hint (lookup l.matchIndex peer + 1) ≤ req.prevLogIndex) :
    ∃ j ≤ max hint (lookup l.matchIndex peer + 1), histTerm histL j ≠ histTerm histF j := by
  have hlength := h.follower.length
  cases hresumes with
  | short =>
    -- the leader's log goes on where the follower's has ended
    refine ⟨f.log.lastLogIndex + 1, le_max_left _ _, fun hcon => ?_⟩
    obtain ⟨t, ht⟩ : ∃ t, histTerm histL (f.log.lastLogIndex + 1) = some t :=
      exists_histTerm (Nat.succ_pos _) (by omega)
    have := histTerm_bounds (hcon.symm.trans ht)
    omega
  | @last t i ht hi =>
    -- behind its last entry of the term the leader has another one, and the follower has not
    have htF := h.follower.termAt_some hpos ht
    obtain ⟨hiL, hbehind, -⟩ := h.leader.lastIndexOfTerm_some hi
    have hlt := hinf.known t i ht hi
    have hiF := h.kindred.symm.earlier htF hiL hlt.le
    refine ⟨i + 1, le_max_left _ _, fun hcon => hbehind (i + 1) (Nat.lt_succ_self i) ?_⟩
    rw [hcon]
    exact histTerm_between h.ordered hiF htF (by omega) (by omega)
  | @floor t ht hi =>
    -- the leader holds nothing of the term, and the follower has it from the floor on
    obtain ⟨-, -, hsame, -⟩ := termFloor_spec h.follower hpos ht
    obtain ⟨hf, hfirst⟩ := first_le_of_canDescribe h.leader hdesc (by omega)
    have hnone := h.leader.lastIndexOfTerm_none hi hf
      (i := max (f.termFloor req.prevLogIndex) (lookup l.matchIndex peer + 1)) (by omega)
    exact ⟨_, le_rfl, fun hcon => hnone (hcon.trans (hsame _ (le_max_left _ _) hback))⟩

/-- **A rejection leads the leader on** exactly when it is informative. -/
theorem converges_iff (h : Facing l f histL histF) (hlast : req.prevLogIndex ≤ histL.length)
    (hrej : f.Rejects req resp) (htaken : lookup l.matchIndex peer ≤ req.prevLogIndex) :
    l.Converges peer histL histF req resp ↔ l.Informative f peer req := by
  obtain ⟨hpos, hint, -, hresumes, hnext⟩ := hrej.resumes l peer h.follower
  have hback := back_iff l.log.canDescribe hint htaken
  rw [← hnext] at hback
  constructor
  · intro hc
    have hcond := hback.mp hc.back
    cases hresumes with
    | short hnone =>
      refine ⟨fun _ hle => ?_, fun hshort => ?_, fun t i ht => ?_⟩
      · rw [if_neg (by omega)] at hcond
        exact hcond
      · have := hshort hnone
        rwa [if_pos (by omega)] at hcond
      · rw [hnone] at ht
        cases ht
    | @last t i ht hi =>
      -- the leader can describe its own last entry of a term
      have hlt : i < req.prevLogIndex := by
        by_contra hge
        rw [if_neg (by omega), Nat.add_sub_cancel, (h.leader.lastIndexOfTerm_some hi).2.2] at hcond
        cases hcond
      refine ⟨fun hnone => ?_, fun _ => ?_, fun t' i' ht' hi' => ?_⟩
      · rw [ht] at hnone
        cases hnone
      · rwa [if_pos (by omega)] at hcond
      · cases ht.symm.trans ht'
        cases hi.symm.trans hi'
        exact hlt
    | @floor t ht hi =>
      have hfloor := (termFloor_spec h.follower hpos ht).2.1
      refine ⟨fun hnone => ?_, fun _ => ?_, fun t' i' ht' hi' => ?_⟩
      · rw [ht] at hnone
        cases hnone
      · rwa [if_pos hfloor] at hcond
      · cases ht.symm.trans ht'
        cases hi.symm.trans hi'
  · intro hinf
    have hcond := hback.mpr (hinf.back h.follower hpos hresumes)
    refine ⟨hcond, by omega, fun hdesc => ?_⟩
    rw [hnext] at hdesc hcond ⊢
    rcases hcond with hlt | hno
    · exact hinf.stops h hlast hpos hresumes hdesc (by omega)
    · cases hdesc.symm.trans hno

end Rejection

/-! ### The two handlers -/

section Handlers

variable [DecidableEq ι] [Sized ι]

omit [Sized ι] in
theorem prevConflict_becomeFollower (f : Node ι) (term : Nat) (leaderID : Option ι)
    (req : AppendEntriesRequest ι) :
    (f.becomeFollower term leaderID).prevConflict req = f.prevConflict req := by
  have hlog := (becomeFollower_frame f term leaderID).1
  split_ifs at hlog
  · simp only [prevConflict, hlog]
    rfl
  · exact prevConflict_congr hlog req

theorem handleAppendEntries_rejects (f : Node ι) (src : Asker ι) {conflictIndex conflictTerm : Nat}
    (hterm : f.currentTerm ≤ req.term) (h : f.prevConflict req = some (conflictIndex, conflictTerm)) :
    ∃ resp, f.Rejects req resp ∧ f.handleAppendEntries src req =
      (f.becomeFollower req.term (some req.leaderID)).replyAppendWhenDurable src req resp 0 := by
  refine ⟨⟨(f.becomeFollower req.term (some req.leaderID)).currentTerm, false, conflictIndex,
    conflictTerm⟩, ⟨rfl, h⟩, ?_⟩
  rw [handleAppendEntries, if_neg (by omega)]
  simp only [prevConflict_becomeFollower, h]

theorem replicateToPeer_nextIndex {n : Node ι} {peer : ι}
    (hstays : n.departing.any (·.peer = peer) = false) :
    (n.replicateToPeer peer).nextIndex = n.nextIndex := by
  have hsnapshot : (n.sendSnapshotToPeer peer).nextIndex = n.nextIndex := by
    unfold sendSnapshotToPeer
    split
    · split_ifs <;> rfl
    · rfl
  unfold replicateToPeer
  dsimp only
  by_cases hdesc : (!n.log.canDescribe (predIndex (lookup n.nextIndex peer))) = true
  · rw [if_pos hdesc, hstays, if_neg Bool.false_ne_true]
    exact hsnapshot
  · split_ifs
    · rfl
    · split <;> rfl

theorem handleRejection_nextIndex (l : Node ι) (peer : ι) {resp : AppendEntriesResponse}
    (hhint : ¬ (resp.conflictIndex = 0 ∧ resp.conflictTerm = 0))
    (hstays : l.departing.any (·.peer = peer) = false) :
    (l.handleRejection peer req resp).nextIndex peer =
      if lookup l.matchIndex peer ≤ req.prevLogIndex then some (l.backtrackTo peer resp)
      else l.nextIndex peer := by
  unfold handleRejection
  rw [if_neg hhint]
  by_cases htaken : lookup l.matchIndex peer ≤ req.prevLogIndex
  · rw [if_neg (by omega), if_pos htaken]
    have hsent : (replicateToPeer { l with
        nextIndex := assign l.nextIndex peer (some (l.backtrackTo peer resp)) } peer).nextIndex =
        assign l.nextIndex peer (some (l.backtrackTo peer resp)) :=
      replicateToPeer_nextIndex hstays
    refine (congrFun hsent peer).trans ?_
    simp [assign]
  · rw [if_pos (by omega), if_neg htaken]

end Handlers

end Node

/-! ## Looking for where the logs meet -/

/-- A leader looks for where the logs meet.  `sent` counts the requests that were no retries. -/
structure Pursuit where
  next : Nat
  underway : List Nat
  sent : Nat
  rejections : Nat

namespace Pursuit

/-- A heartbeat goes out, replication goes on, or the answer to the `k`-th request is taken
up. -/
inductive Event
  | heartbeat
  | replicate
  | answer (k : Nat) (room : Bool)
  deriving DecidableEq, Repr

def ask (s : Pursuit) : Pursuit :=
  { s with underway := s.underway ++ [s.next - 1], sent := s.sent + 1 }

def settle (s : Pursuit) (k : Nat) : Pursuit := { s with underway := s.underway.eraseIdx k }

def retreat (s : Pursuit) (l : Node ι) (room : Bool) (next : Nat) : Pursuit :=
  { next := next
    underway := if l.log.canDescribe (next - 1) && room then s.underway ++ [next - 1] else s.underway
    sent := s.sent
    rejections := s.rejections + 1 }

variable [DecidableEq ι]

def probe (l : Node ι) (peer : ι) (prev : Nat) : AppendEntriesRequest ι :=
  { l with nextIndex := assign l.nextIndex peer (some (prev + 1)) }.emptyAppend peer 0

def step (l f : Node ι) (peer : ι) (s : Pursuit) : Event → Pursuit
  | .heartbeat => s.ask
  | .replicate => if l.log.canDescribe (s.next - 1) then s.ask else s
  | .answer k room =>
    match s.underway[k]? with
    | none => s
    | some prev =>
      match f.prevConflict (probe l peer prev) with
      | none => s.settle k
      | some (conflictIndex, conflictTerm) =>
        if prev < lookup l.matchIndex peer then s.settle k
        else (s.settle k).retreat l room
          (l.backtrackTo peer ⟨l.currentTerm, false, conflictIndex, conflictTerm⟩)

def run (l f : Node ι) (peer : ι) (s : Pursuit) (es : List Event) : Pursuit :=
  es.foldl (step l f peer) s

def Described (l f : Node ι) (peer : ι) : Pursuit → List Event → Prop
  | _, [] => True
  | s, e :: es => (e = .heartbeat → l.log.canDescribe (s.next - 1) = true) ∧
    Described l f peer (step l f peer s e) es

/-- How often a request and its retries may be rejected: once for each term of the follower's
log, and once more if it is too short. -/
def potential (f : Node ι) (histL histF : List Nat) (prev : Nat) : Nat :=
  if histTerm histL prev = histTerm histF prev then 0
  else ((histF.take prev).drop f.log.snapMeta.lastIncludedIndex).toFinset.card +
    if histF.length < prev then 1 else 0

section Potential

variable {l f : Node ι} {peer : ι} {histL histF : List Nat} {prev : Nat}
  {resp : AppendEntriesResponse}

omit [DecidableEq ι] in
theorem potential_le (f : Node ι) (histL histF : List Nat) (prev : Nat) :
    potential f histL histF prev ≤ (histL ++ histF).toFinset.card + 1 := by
  have hsub : ((histF.take prev).drop f.log.snapMeta.lastIncludedIndex).toFinset ⊆
      (histL ++ histF).toFinset := by
    intro t ht
    rw [List.mem_toFinset] at ht ⊢
    exact List.mem_append_right _ (List.mem_of_mem_take (List.mem_of_mem_drop ht))
  have hcard := Finset.card_le_card hsub
  unfold potential
  split_ifs <;> omega

omit [DecidableEq ι] in
theorem mem_stretch {hist : List Nat} {lo hi t : Nat} :
    t ∈ ((hist.take hi).drop lo).toFinset ↔ ∃ i, lo < i ∧ i ≤ hi ∧ histTerm hist i = some t := by
  rw [List.mem_toFinset, List.mem_iff_getElem?]
  constructor
  · rintro ⟨k, hk⟩
    rw [List.getElem?_drop, List.getElem?_take] at hk
    split_ifs at hk with hlt
    refine ⟨lo + k + 1, by omega, by omega, ?_⟩
    exact hk
  · rintro ⟨i, hlo, hhi, hi⟩
    refine ⟨i - 1 - lo, ?_⟩
    rw [histTerm, if_neg (by omega)] at hi
    rw [List.getElem?_drop, List.getElem?_take, if_pos (by omega),
      show lo + (i - 1 - lo) = i - 1 by omega, hi]

theorem probe_spec (peer : ι) (h : l.log.TailOf histL) (hdesc : l.log.canDescribe prev = true)
    (hpos : 0 < prev) (hlast : prev ≤ histL.length) :
    (probe l peer prev).prevLogIndex = prev ∧
      histTerm histL prev = some (probe l peer prev).prevLogTerm := by
  have hindex : (probe l peer prev).prevLogIndex = prev := by
    simp [probe, Node.emptyAppend, lookup, assign, predIndex]
  refine ⟨hindex, ?_⟩
  have hterm : ∃ t, l.log.termAt prev = some t := by
    unfold RaftLog.canDescribe at hdesc
    split_ifs at hdesc with hsnap hzero
    · exact h.exists_termAt hsnap.ge hlast
    · exact absurd hzero (by omega)
    · obtain ⟨hf, hlo, hhi⟩ := of_decide_eq_true hdesc
      exact h.wf.exists_termAt hf hlo hhi
  obtain ⟨t, ht⟩ := hterm
  have hprobe : (probe l peer prev).prevLogTerm = (l.log.termAt prev).getD 0 := by
    simp [probe, Node.emptyAppend, lookup, assign, predIndex]
  rw [hprobe, ht, Option.getD_some]
  exact h.termAt_some hpos ht

structure InReach (l f : Node ι) (peer : ι) (histL : List Nat) (prev : Nat) : Prop where
  desc : l.log.canDescribe prev = true
  lo : max (lookup l.matchIndex peer) f.log.snapMeta.lastIncludedIndex ≤ prev
  last : prev ≤ histL.length

theorem differ_of_rejects (h : Node.Facing l f histL histF) (hprev : InReach l f peer histL prev)
    (hrej : f.Rejects (probe l peer prev) resp) (hpos : 0 < prev) :
    histTerm histL prev ≠ histTerm histF prev := by
  obtain ⟨hindex, hterm⟩ := probe_spec peer h.leader hprev.desc hpos hprev.last
  intro heq
  rw [heq] at hterm
  obtain ⟨t, ht⟩ := h.follower.exists_termAt (le_max_right _ _ |>.trans hprev.lo)
    (histTerm_bounds hterm).2
  have hfound := h.follower.termAt_some hpos ht
  have hnone : f.prevConflict (probe l peer prev) = none := by
    rw [Node.prevConflict_eq_none_iff, hindex, ht, Option.getD_some]
    exact .inr (Option.some.inj (hfound.symm.trans hterm))
  rw [hrej.2] at hnone
  cases hnone

section Agreement

-- the logs agree up to what the peer has acknowledged and compacted
variable (h : Node.Facing l f histL histF)
  (hagree : ∀ j ≤ max (lookup l.matchIndex peer) f.log.snapMeta.lastIncludedIndex,
    histTerm histL j = histTerm histF j)

include h hagree

/-- **The rejection of a probe is informative.** -/
theorem informative_of_rejects (hprev : InReach l f peer histL prev)
    (hrej : f.Rejects (probe l peer prev) resp) (hpos : 0 < prev) :
    l.Informative f peer (probe l peer prev) := by
  have hdiffer := differ_of_rejects h hprev hrej hpos
  obtain ⟨hdesc, hlo, hlast⟩ := hprev
  obtain ⟨hindex, -⟩ := probe_spec peer h.leader hdesc hpos hlast
  have hlt : lookup l.matchIndex peer < prev := by
    by_contra hge
    exact hdiffer (hagree prev (by omega))
  have hlength := h.follower.length
  refine ⟨fun hnone hle => ?_, fun _ => .inl (by rw [hindex]; exact hlt), fun t i ht hi => ?_⟩
  · rw [hindex] at hnone hle
    have := h.follower.termAt_none hpos hnone
    omega
  · rw [hindex] at ht ⊢
    by_contra hge
    have htF := h.follower.termAt_some hpos ht
    have hiL := (h.leader.lastIndexOfTerm_some hi).1
    exact hdiffer ((h.kindred.earlier hiL htF (by omega)).trans htF.symm)

omit h [DecidableEq ι] in
theorem potential_pos (hdiffer : histTerm histL prev ≠ histTerm histF prev) :
    0 < potential f histL histF prev := by
  have hsnap : f.log.snapMeta.lastIncludedIndex < prev := by
    by_contra hge
    exact hdiffer (hagree prev (by omega))
  rw [potential, if_neg hdiffer]
  split_ifs with hshort
  · exact Nat.succ_pos _
  · obtain ⟨t, ht⟩ : ∃ t, histTerm histF prev = some t := exists_histTerm (by omega) (by omega)
    exact Nat.add_pos_left (Finset.card_pos.mpr ⟨t, mem_stretch.mpr ⟨prev, hsnap, le_rfl, ht⟩⟩) 0

/-- **Each rejection uses something up**: the next request has a lower potential. -/
theorem potential_lt (hprev : InReach l f peer histL prev)
    (hrej : f.Rejects (probe l peer prev) resp) (hpos : 0 < prev)
    (hdesc' : l.log.canDescribe (l.backtrackTo peer resp - 1) = true) :
    l.backtrackTo peer resp ≤ prev ∧
      max (lookup l.matchIndex peer) f.log.snapMeta.lastIncludedIndex < l.backtrackTo peer resp ∧
      potential f histL histF (l.backtrackTo peer resp - 1) < potential f histL histF prev := by
  have hdiffer := differ_of_rejects h hprev hrej hpos
  have hinf := informative_of_rejects h hagree hprev hrej hpos
  obtain ⟨hdesc, hlo, hlast⟩ := hprev
  obtain ⟨hindex, -⟩ := probe_spec peer h.leader hdesc hpos hlast
  have hconv := (Node.converges_iff h (by omega) hrej (by omega)).mpr hinf
  obtain ⟨-, hint, -, hresumes, hnext⟩ := hrej.resumes l peer h.follower
  rw [hindex] at hresumes
  have hle : l.backtrackTo peer resp ≤ prev := by
    have := hconv.back.resolve_right (by simp [hdesc'])
    omega
  have hbehind : max (lookup l.matchIndex peer) f.log.snapMeta.lastIncludedIndex <
      l.backtrackTo peer resp := by
    obtain ⟨j, hj, hne⟩ := hconv.stops hdesc'
    by_contra hge
    exact hne (hagree j (by omega))
  have hlength := h.follower.length
  refine ⟨hle, hbehind, ?_⟩
  by_cases hmeet : histTerm histL (l.backtrackTo peer resp - 1) =
      histTerm histF (l.backtrackTo peer resp - 1)
  · rw [potential, if_pos hmeet]
    exact potential_pos hagree hdiffer
  · -- the logs do not meet yet, so the leader has gone back to the hint itself
    have hgt : max (lookup l.matchIndex peer) f.log.snapMeta.lastIncludedIndex <
        l.backtrackTo peer resp - 1 := by
      by_contra hge
      exact hmeet (hagree _ (by omega))
    have heq : l.backtrackTo peer resp = hint := by omega
    rw [heq] at hmeet hgt hle ⊢
    rw [potential, potential, if_neg hmeet, if_neg hdiffer]
    cases hresumes with
    | short =>
      rw [Nat.add_sub_cancel, hlength, if_neg (Nat.lt_irrefl _), if_pos (by omega),
        List.take_length, List.take_of_length_le (by omega)]
      exact Nat.lt_succ_self _
    | @last t i ht hi =>
      have hiL := (h.leader.lastIndexOfTerm_some hi).1
      have htF := h.follower.termAt_some hpos ht
      exact absurd (hiL.trans (h.kindred.symm.earlier htF hiL (by omega)).symm) hmeet
    | @floor t ht _ =>
      obtain ⟨-, -, -, hother⟩ := Node.termFloor_spec h.follower hpos ht
      have htF := h.follower.termAt_some hpos ht
      have hin := (histTerm_bounds htF).2
      rw [if_neg (by omega), if_neg (by omega), Nat.add_zero, Nat.add_zero]
      refine Finset.card_lt_card (Finset.ssubset_iff_of_subset ?_ |>.mpr ⟨t, ?_, ?_⟩)
      · intro u hu
        obtain ⟨i, hlo', hhi, hiu⟩ := mem_stretch.mp hu
        exact mem_stretch.mpr ⟨i, hlo', by omega, hiu⟩
      · exact mem_stretch.mpr ⟨prev, by omega, le_rfl, htF⟩
      · -- the term does not occur before the floor, since terms do not go down
        intro hmem
        obtain ⟨i, hlo', hhi, hit⟩ := mem_stretch.mp hmem
        exact hother (by omega) (histTerm_between h.ordered hit htF hhi (by omega))

omit h hagree

/-- The rejections so far and those still to come are paid for by what was sent. -/
structure Paid (l f : Node ι) (peer : ι) (histL histF : List Nat) (s : Pursuit) : Prop where
  next : l.log.canDescribe (s.next - 1) = true →
    max (lookup l.matchIndex peer) f.log.snapMeta.lastIncludedIndex < s.next ∧
      s.next ≤ histL.length + 1
  underway : ∀ prev ∈ s.underway, InReach l f peer histL prev
  paid : s.rejections + (s.underway.map (potential f histL histF)).sum ≤
    s.sent * ((histL ++ histF).toFinset.card + 1)

variable {s : Pursuit}

omit [DecidableEq ι] in
theorem Paid.ask (h : Paid l f peer histL histF s) (hdesc : l.log.canDescribe (s.next - 1) = true) :
    Paid l f peer histL histF s.ask := by
  have hnext := h.next hdesc
  have hpaid := h.paid
  have hle := potential_le f histL histF (s.next - 1)
  refine ⟨h.next, List.forall_mem_append.mpr
    ⟨h.underway, List.forall_mem_singleton.mpr ⟨hdesc, by omega, by omega⟩⟩, ?_⟩
  simp only [Pursuit.ask, List.map_append, List.map_cons, List.map_nil, List.sum_append,
    List.sum_singleton, Nat.add_mul, Nat.one_mul]
  omega

omit [DecidableEq ι] in
theorem sum_eraseIdx (φ : Nat → Nat) {ps : List Nat} {k : Nat} (hk : ps[k]? = some prev) :
    (ps.map φ).sum = φ prev + ((ps.eraseIdx k).map φ).sum := by
  obtain ⟨hlt, rfl⟩ := List.getElem?_eq_some_iff.mp hk
  have hperm := (List.getElem_cons_eraseIdx_perm hlt).map φ
  rw [← hperm.sum_nat, List.map_cons, List.sum_cons]

omit [DecidableEq ι] in
theorem Paid.settle (h : Paid l f peer histL histF s) {k : Nat} (hk : s.underway[k]? = some prev) :
    Paid l f peer histL histF (s.settle k) ∧
      (s.settle k).rejections + ((s.settle k).underway.map (potential f histL histF)).sum +
        potential f histL histF prev ≤
      (s.settle k).sent * ((histL ++ histF).toFinset.card + 1) := by
  have hsum := sum_eraseIdx (potential f histL histF) hk
  have hpaid := h.paid
  have hleft : (s.settle k).rejections + ((s.settle k).underway.map (potential f histL histF)).sum +
      potential f histL histF prev ≤ (s.settle k).sent * ((histL ++ histF).toFinset.card + 1) := by
    simp only [Pursuit.settle]
    omega
  exact ⟨⟨h.next, fun p hp => h.underway p (List.mem_of_mem_eraseIdx hp), by omega⟩, hleft⟩

include h hagree

section

variable (hs : Paid l f peer histL histF s)

include hs

theorem Paid.retreat (hleft : s.rejections + (s.underway.map (potential f histL histF)).sum +
      potential f histL histF prev ≤ s.sent * ((histL ++ histF).toFinset.card + 1))
    (hprev : InReach l f peer histL prev) (hrej : f.Rejects (probe l peer prev) resp)
    (room : Bool) : Paid l f peer histL histF (s.retreat l room (l.backtrackTo peer resp)) := by
  have hpos : 0 < prev := by
    have := (hrej.cases h.follower).1
    simpa [probe, Node.emptyAppend, lookup, assign, predIndex] using this
  have hnext := potential_lt h hagree hprev hrej hpos
  have hlast := hprev.last
  refine ⟨fun hdesc' => ⟨(hnext hdesc').2.1, ?_⟩, ?_, ?_⟩
  · have := (hnext hdesc').1
    simp only [Pursuit.retreat]
    omega
  · simp only [Pursuit.retreat]
    split_ifs with hretry
    · obtain ⟨hdesc', -⟩ := Bool.and_eq_true_iff.mp hretry
      obtain ⟨hle, hbehind, -⟩ := hnext hdesc'
      exact List.forall_mem_append.mpr
        ⟨hs.underway, List.forall_mem_singleton.mpr ⟨hdesc', by omega, by omega⟩⟩
    · exact hs.underway
  · simp only [Pursuit.retreat]
    split_ifs with hretry
    · -- the retry takes the place of the request, with less to pay for
      obtain ⟨hdesc', -⟩ := Bool.and_eq_true_iff.mp hretry
      obtain ⟨-, -, hlt⟩ := hnext hdesc'
      simp only [List.map_append, List.map_cons, List.map_nil, List.sum_append, List.sum_singleton]
      omega
    · have hused := potential_pos hagree (differ_of_rejects h hprev hrej hpos)
      omega

/-- **One event** keeps the account. -/
theorem Paid.step {e : Event} (he : e = .heartbeat → l.log.canDescribe (s.next - 1) = true) :
    Paid l f peer histL histF (step l f peer s e) := by
  cases e with
  | heartbeat => exact hs.ask (he rfl)
  | replicate =>
    simp only [Pursuit.step]
    split_ifs with hdesc
    · exact hs.ask hdesc
    · exact hs
  | answer k room =>
    simp only [Pursuit.step]
    cases hk : s.underway[k]? with
    | none => exact hs
    | some prev =>
      have hprev := hs.underway prev (List.mem_of_getElem? hk)
      obtain ⟨hsettled, hleft⟩ := hs.settle hk
      dsimp only
      cases hconflict : f.prevConflict (probe l peer prev) with
      | none => exact hsettled
      | some =>
        split_ifs
        · exact hsettled
        · exact .retreat h hagree hsettled hleft hprev ⟨rfl, hconflict⟩ room

theorem Paid.run {es : List Event} (hes : Described l f peer s es) :
    Paid l f peer histL histF (run l f peer s es) := by
  induction es generalizing s with
  | nil => exact hs
  | cons e es ih => exact ih (.step h hagree hs hes.1) hes.2

end

end Agreement

end Potential

/-- **Backtracking converges.** A rejection leads back exactly when it is informative; and where the
logs agree up to what the peer has acknowledged and compacted, a request and its retries are
rejected at most as often as the logs have terms, and once more. -/
theorem backtracking_converges :
    (∀ (l f : Node ι) (peer : ι) (histL histF : List Nat) (req : AppendEntriesRequest ι)
      (resp : AppendEntriesResponse), Node.Facing l f histL histF →
      req.prevLogIndex ≤ histL.length → f.Rejects req resp →
      lookup l.matchIndex peer ≤ req.prevLogIndex →
      (l.Converges peer histL histF req resp ↔ l.Informative f peer req)) ∧
    ∀ (l f : Node ι) (peer : ι) (histL histF : List Nat) (next : Nat) (es : List Event),
      Node.Facing l f histL histF →
      (∀ j ≤ max (lookup l.matchIndex peer) f.log.snapMeta.lastIncludedIndex,
        histTerm histL j = histTerm histF j) →
      max (lookup l.matchIndex peer) f.log.snapMeta.lastIncludedIndex < next →
      next ≤ histL.length + 1 → Described l f peer ⟨next, [], 0, 0⟩ es →
      (run l f peer ⟨next, [], 0, 0⟩ es).rejections ≤
        (run l f peer ⟨next, [], 0, 0⟩ es).sent * ((histL ++ histF).toFinset.card + 1) := by
  refine ⟨fun _ _ _ _ _ _ _ hface hlast hrej htaken => Node.converges_iff hface hlast hrej htaken,
    fun l f peer histL histF next es hface hagree hlo hhi hes => ?_⟩
  have hstart : Paid l f peer histL histF ⟨next, [], 0, 0⟩ :=
    ⟨fun _ => ⟨hlo, hhi⟩, (fun _ hp => nomatch hp), Nat.zero_le _⟩
  have := (Paid.run hface hagree hstart hes).paid
  omega

/-! ## Small logs -/

section Samples

open Node

def secondTerm : Node Nat :=
  ofStore [1, 2] 1 ⟨⟨2, some 1⟩, [⟨1, 1, .user [1]⟩, ⟨2, 2, .user [2]⟩], none, 0⟩ rfl

def firstTerm : Node Nat :=
  ofStore [1, 2] 2 ⟨⟨1, some 2⟩, [⟨1, 1, .user [1]⟩, ⟨2, 1, .user [3]⟩], none, 0⟩ rfl

theorem facing_terms : Facing secondTerm firstTerm [1, 2] [1, 1] := by
  refine ⟨.of_fresh (s := secondTerm.log.w.storage) (.of_new ⟨?_, by decide⟩ rfl) ?_ ?_ ?_ ?_ ?_,
    .of_fresh (s := firstTerm.log.w.storage) (.of_new ⟨?_, by decide⟩ rfl) ?_ ?_ ?_ ?_ ?_,
    ⟨by decide, fun t => ?_⟩, ?_⟩
  case refine_1 | refine_7 => exact (Contiguous.singleton _).append (Contiguous.singleton _)
  case refine_13 =>
    -- term 1 was created in the follower's log, everything else in the leader's
    by_cases ht : t = 1
    · refine ⟨[1, 1], by decide, by decide, ?_⟩
      rintro i (hi | hi)
      · have := histTerm_bounds hi
        obtain rfl | rfl : i = 1 ∨ i = 2 := by simp at this; omega
        · exact hi
        · cases hi
          cases ht
      · exact hi
    · refine ⟨[1, 2], by decide, by decide, ?_⟩
      rintro i (hi | hi)
      · exact hi
      · have := mem_of_histTerm hi
        simp at this
        exact absurd this ht
  all_goals decide

/-- The leader is sent back behind its entry of term 1, where the logs meet. -/
theorem secondTerm_converges :
    secondTerm.Converges 2 [1, 2] [1, 1] (probe secondTerm 2 2) ⟨1, false, 1, 1⟩ ∧
      (run secondTerm firstTerm 2 ⟨3, [], 0, 0⟩ [.replicate, .answer 0 true, .answer 0 true]).rejections ≤
        (run secondTerm firstTerm 2 ⟨3, [], 0, 0⟩
          [.replicate, .answer 0 true, .answer 0 true]).sent * (([1, 2] ++ [1, 1]).toFinset.card + 1) := by
  refine ⟨(backtracking_converges.1 secondTerm firstTerm 2 [1, 2] [1, 1] _ _ facing_terms (by decide)
    ⟨rfl, by decide⟩ (by decide)).mpr ⟨by decide, fun _ => .inl (by decide), ?_⟩,
    backtracking_converges.2 secondTerm firstTerm 2 [1, 2] [1, 1] 3 _ facing_terms ?_ (by decide)
      (by decide) ⟨by decide, by decide, by decide, trivial⟩⟩
  · intro t i ht hi
    obtain rfl : 1 = t := Option.some.inj (ht ▸ (by decide : some 1 = firstTerm.log.termAt 2))
    obtain rfl : 1 = i := Option.some.inj (hi ▸ (by decide : some 1 = secondTerm.log.lastIndexOfTerm 1))
    decide
  · intro j hj
    obtain rfl : j = 0 := Nat.le_zero.mp hj
    rfl

def acknowledged : Node Nat :=
  { ofStore [1, 2] 1 ⟨⟨1, some 1⟩, [⟨1, 1, .user [1]⟩, ⟨2, 1, .user [2]⟩], none, 0⟩ rfl with
    matchIndex := fun _ => some 2 }

def compactedThree : Node Nat :=
  ofStore [1, 2] 1 ⟨⟨1, some 1⟩, [⟨4, 1, .user [4]⟩], some ⟨⟨3, 1⟩, [], none, none, []⟩, 0⟩ rfl

def holding (es : List (LogEntry Nat)) : Node Nat :=
  match Node.new (.ofGroup [1, 2] 2) ⟨⟨1, some 1⟩, es, none, 0⟩ 0 0 [] [] with
  | some n => n
  | none => firstTerm

def thirdEntry : Node Nat :=
  ofStore [1, 2] 1 ⟨⟨2, some 1⟩, [⟨1, 1, .user [1]⟩, ⟨2, 1, .user [2]⟩, ⟨3, 2, .user [3]⟩], none, 0⟩ rfl

/-- A rejection overtaken by an acknowledgement does not lead back; a leader that has compacted
index 1 is sent to the end of its log; three heartbeats make three rejections; and logs that do not
match send the leader forward. -/
theorem backtracking_not_convergent :
    (LogMatching [1, 1] [1] ∧ (holding [⟨1, 1, .user [1]⟩]).Rejects (probe acknowledged 2 2) ⟨1, false, 2, 0⟩ ∧
      lookup acknowledged.matchIndex 2 ≤ 2 ∧ acknowledged.backtrackTo 2 ⟨1, false, 2, 0⟩ = 3 ∧
      acknowledged.log.canDescribe 2 = true) ∧
    (LogMatching [1, 1, 1, 1] [1, 1] ∧ (probe compactedThree 2 1).prevLogTerm = 0 ∧
      firstTerm.Rejects (probe compactedThree 2 1) ⟨1, false, 1, 1⟩ ∧
      compactedThree.backtrackTo 2 ⟨1, false, 1, 1⟩ = 5 ∧ compactedThree.log.canDescribe 4 = true) ∧
    (LogMatching [1, 1] [] ∧ (([1, 1] ++ []).toFinset.card + 1 <
      (run firstTerm (holding []) 1 ⟨3, [], 0, 0⟩ [.heartbeat, .heartbeat, .heartbeat,
        .answer 0 true, .answer 0 true, .answer 0 true]).rejections)) ∧
    (LogMatching [1, 1, 2] [1, 2] ∧
      (holding [⟨1, 1, .user [1]⟩, ⟨2, 2, .user [4]⟩]).Rejects (probe thirdEntry 2 2) ⟨2, false, 2, 2⟩ ∧
      thirdEntry.backtrackTo 2 ⟨2, false, 2, 2⟩ = 4 ∧ thirdEntry.log.canDescribe 3 = true) := by
  refine ⟨⟨by decide, ⟨rfl, by decide⟩, by decide, by decide, by decide⟩,
    ⟨by decide, by decide, ⟨rfl, by decide⟩, by decide, by decide⟩, ⟨by decide, by decide⟩,
    by decide, ⟨rfl, by decide⟩, by decide, by decide⟩

end Samples

end Pursuit

end Raft
