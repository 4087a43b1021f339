import Mathlib.Data.List.Pairwise
import Mathlib.Data.List.Perm.Basic
import Raft.Node.State
import Raft.Wire.Commands

/-!
# Batched heartbeats

With many groups on one pair of hosts, the heartbeats for a peer are collected for a moment
and sent in one call.  The receiver handles them concurrently and answers when it has all
results, and the sender gives every caller the result under the number of its group.

So the callers of a batch depend on each other.  A group number does not name a heartbeat: a
leader that sends a heartbeat and a read barrier within one window has two in the batch, and
both callers get the result that came last.  And a handler that does not come to an end in
the time of the whole batch leaves all of its callers without an answer.
-/

namespace Raft.Transport

inductive Code
  | canceled | invalidArgument | deadlineExceeded | notFound | permissionDenied | resourceExhausted
  | internal | other (n : Nat)
  deriving DecidableEq, Repr

structure Status where
  code : Code
  message : String
  deriving DecidableEq, Repr

/-- Why a context is done. -/
inductive ContextError
  | canceled | deadlineExceeded
  deriving DecidableEq, Repr

def ContextError.status : ContextError → Status
  | .canceled => ⟨.canceled, "context canceled"⟩
  | .deadlineExceeded => ⟨.deadlineExceeded, "context deadline exceeded"⟩

inductive SendError
  | context (err : ContextError)
  | client (err : String)
  | messageTooLarge (rpc : String) (st : Status)
  | unauthorizedPeer (rpc : String) (st : Status)
  | rpc (st : Status)
  | noResult (groupID : Nat)
  deriving DecidableEq, Repr

def sendErr (rpc : String) (st : Status) : SendError :=
  if st.code = .resourceExhausted then .messageTooLarge rpc st
  else if st.code = .permissionDenied then .unauthorizedPeer rpc st
  else .rpc st

abbrev Answer := Except SendError AppendEntriesResponse

structure HeartbeatEntry where
  groupID : Nat
  term : Nat
  leaderID : NodeID
  prevLogIndex : Nat
  prevLogTerm : Nat
  leaderCommit : Nat
  readBarrier : Nat

structure HeartbeatResult where
  groupID : Nat
  term : Nat
  success : Bool
  conflictIndex : Nat
  conflictTerm : Nat
  /-- None when the group has answered. -/
  errorCode : Option Code
  errorMessage : String
  deriving DecidableEq, Repr

/-- A heartbeat that is queued.  Times are counted from the moment its batch is sent. -/
structure HbCall where
  groupID : Nat
  req : AppendEntriesRequest NodeID
  empty : req.entries = []
  /-- The error of the caller's context when the batch is sent. -/
  ctxErr : Option ContextError
  /-- When the caller gives up. -/
  remaining : Nat
  /-- When the group's handler is done with the request, if it ever is. -/
  took : Option Nat

namespace HbCall

def entry (c : HbCall) : HeartbeatEntry where
  groupID := c.groupID
  term := c.req.term
  leaderID := c.req.leaderID
  prevLogIndex := c.req.prevLogIndex
  prevLogTerm := c.req.prevLogTerm
  leaderCommit := c.req.leaderCommit
  readBarrier := c.req.readBarrier

def live (c : HbCall) : Bool := c.ctxErr.isNone

end HbCall

def HeartbeatEntry.request (e : HeartbeatEntry) : AppendEntriesRequest NodeID where
  term := e.term
  leaderID := e.leaderID
  prevLogIndex := e.prevLogIndex
  prevLogTerm := e.prevLogTerm
  entries := []
  leaderCommit := e.leaderCommit
  readBarrier := e.readBarrier

theorem HbCall.request_entry (c : HbCall) : c.entry.request = c.req := by
  have hreq : { c.req with entries := [] } = c.req := by rw [← c.empty]
  exact hreq

/-- A call, and what the group's handler makes of a request. -/
abbrev Handled := HbCall × (AppendEntriesRequest NodeID → Except String AppendEntriesResponse)

def maxNodeIDLen : Nat := 256

/-- The node a transport without groups finds for a call. -/
inductive NodeLookup
  | found
  | missingMetadata
  | unknown (id : NodeID)

structure Receiver where
  strictValidation : Bool
  /-- The authorizer, if there is one, and its error. -/
  peerAuth : Option (NodeID → Option String)
  /-- The groups that have a handler; without it, the transport looks for a node. -/
  groupLookup : Option (Nat → Bool)
  node : NodeLookup

namespace Receiver

variable (r : Receiver)

def authorize (rpc : String) (claimed : NodeID) : Option Status :=
  if maxNodeIDLen < claimed.length then
    some ⟨.invalidArgument, rpc ++ ": node ID is " ++ toString claimed.length ++
      " bytes, exceeding the " ++ toString maxNodeIDLen ++ " byte limit"⟩
  else if r.strictValidation ∧ claimed = [] then
    some ⟨.invalidArgument, rpc ++ ": request carries no node ID"⟩
  else (r.peerAuth.bind (· claimed)).map fun err =>
    ⟨.permissionDenied, rpc ++ ": peer is not authorized as " ++ toString claimed ++ ": " ++ err⟩

def handler : Option Status :=
  match r.node with
  | .found => none
  | .missingMetadata => some ⟨.invalidArgument, "missing x-raft-node-id metadata"⟩
  | .unknown id => some ⟨.notFound, "no handler for node " ++ toString id⟩

def handlerForGroup (groupID : Nat) : Option Status :=
  match r.groupLookup with
  | some lookup =>
    if groupID = 0 then
      some ⟨.invalidArgument, "GroupID must be non-zero when SetGroupLookup is installed"⟩
    else if lookup groupID then none
    else some ⟨.notFound, "no handler for group " ++ toString groupID⟩
  | none => r.handler

/-- Why a heartbeat does not reach a handler. -/
def refusal (rpc : String) (c : HbCall) : Option Status :=
  (r.authorize rpc c.entry.leaderID).or (r.handlerForGroup c.groupID)

def appendEntries (rpc : String) (h : Handled) : Except Status AppendEntriesResponse :=
  match r.refusal rpc h.1 with
  | some st => .error st
  | none =>
    match h.2 h.1.req with
    | .error err => .error ⟨.internal, err⟩
    | .ok resp => .ok resp

/-- When the receiver has a result for a heartbeat. -/
def answersAt (c : HbCall) : Option Nat :=
  if (r.refusal "BatchHeartbeats" c).isSome then some 0 else c.took

end Receiver

def heartbeatErrResult (groupID : Nat) (st : Status) : HeartbeatResult :=
  ⟨groupID, 0, false, 0, 0, some st.code, st.message⟩

def Receiver.dispatchHeartbeatEntry (r : Receiver) (h : Handled) : HeartbeatResult :=
  match r.refusal "BatchHeartbeats" h.1 with
  | some st => heartbeatErrResult h.1.groupID st
  | none =>
    match h.2 h.1.entry.request with
    | .error err => heartbeatErrResult h.1.groupID ⟨.internal, err⟩
    | .ok resp =>
      ⟨h.1.groupID, resp.term, resp.success, resp.conflictIndex, resp.conflictTerm, none, ""⟩

/-- Waits for `n` results, which come in with their times, until the context is done. -/
def collect (deadline : Nat) : Nat → List (Nat × HeartbeatResult) →
    Except Status (List HeartbeatResult)
  | 0, _ => .ok []
  | _ + 1, [] => .error ContextError.deadlineExceeded.status
  | n + 1, (t, res) :: rest =>
    if t ≤ deadline then (collect deadline n rest).map (res :: ·)
    else .error ContextError.deadlineExceeded.status

def HeartbeatResult.answer (res : HeartbeatResult) : Answer :=
  match res.errorCode with
  | some code => .error (sendErr "BatchHeartbeats" ⟨code, res.errorMessage⟩)
  | none => .ok ⟨res.term, res.success, res.conflictIndex, res.conflictTerm⟩

def indexResults (results : List HeartbeatResult) : Nat → Option HeartbeatResult :=
  results.foldl (fun index res => Function.update index res.groupID (some res)) fun _ => none

/-- In nanoseconds. -/
def hbMinRPCTimeout : Nat := 10000000

def batchDeadline (batch : List HbCall) (maxWait : Nat) : Nat :=
  max hbMinRPCTimeout ((batch.map (·.remaining)).foldl min maxWait)

/-- The way to the peer: the error of `clientFor`, and the time for a batch at most. -/
structure Link where
  clientErr : Option String
  heartbeatRPCTimeout : Nat

/-- One batch: when its callers are answered, and how. -/
def send (l : Link) (batch : List HbCall) (arrivals : List (Nat × HeartbeatResult)) :
    Nat × (HbCall → Answer) :=
  let live := batch.filter HbCall.live
  let deadline := batchDeadline live l.heartbeatRPCTimeout
  match l.clientErr with
  | some err => (0, fun _ => .error (.client err))
  | none =>
    match collect deadline live.length arrivals with
    | .error st => (deadline, fun _ => .error (sendErr "BatchHeartbeats" st))
    | .ok results =>
      ((arrivals.map (·.1)).foldr max 0, fun c =>
        match indexResults results c.groupID with
        | none => .error (.noResult c.groupID)
        | some res => res.answer)

/-- What a caller of `Send` gets, whose heartbeat is in the batch. -/
def batched (l : Link) (batch : List HbCall) (arrivals : List (Nat × HeartbeatResult))
    (c : HbCall) : Answer :=
  match c.ctxErr with
  | some err => .error (.context err)
  | none =>
    if c.remaining < (send l batch arrivals).1 then .error (.context .deadlineExceeded)
    else (send l batch arrivals).2 c

/-- What it gets for a heartbeat that is sent by itself. -/
def alone (l : Link) (r : Receiver) (h : Handled) : Answer :=
  match h.1.ctxErr, l.clientErr with
  | some err, _ => .error (.context err)
  | none, some err => .error (.client err)
  | none, none =>
    if (r.answersAt h.1).any (· ≤ h.1.remaining) then
      match r.appendEntries "AppendEntries" h with
      | .error st => .error (sendErr "AppendEntries" st)
      | .ok resp => .ok resp
    else .error (sendErr "AppendEntries" ContextError.deadlineExceeded.status)

/-- The code under which an error is known to the caller. -/
def SendError.code : SendError → Option Code
  | .messageTooLarge _ st | .unauthorizedPeer _ st | .rpc st => some st.code
  | .context err => some err.status.code
  | _ => none

/-- An answer, with the code of an error in place of its text, which names the call. -/
def outcome (ans : Answer) : Except (Option Code) AppendEntriesResponse := ans.mapError SendError.code

theorem sendErr_code (rpc : String) (st : Status) : (sendErr rpc st).code = some st.code := by
  unfold sendErr
  split_ifs <;> rfl

section Entry

variable (r : Receiver) (h : Handled)

@[simp] theorem dispatchHeartbeatEntry_groupID :
    (r.dispatchHeartbeatEntry h).groupID = h.1.groupID := by
  unfold Receiver.dispatchHeartbeatEntry
  repeat' split
  all_goals rfl

theorem refusal_code (rpc rpc' : String) (c : HbCall) :
    (r.refusal rpc c).map (·.code) = (r.refusal rpc' c).map (·.code) := by
  have hauth : (r.authorize rpc c.entry.leaderID).map (·.code) =
      (r.authorize rpc' c.entry.leaderID).map (·.code) := by
    unfold Receiver.authorize
    split_ifs
    · rfl
    · rfl
    · cases r.peerAuth.bind (· c.entry.leaderID) <;> rfl
  unfold Receiver.refusal
  cases hrpc : r.authorize rpc c.entry.leaderID <;> cases hrpc' : r.authorize rpc' c.entry.leaderID <;>
    simp_all

theorem refusal_code_ne {c : HbCall} {st : Status} (hst : r.refusal "BatchHeartbeats" c = some st) :
    st.code ≠ .deadlineExceeded := by
  unfold Receiver.refusal Receiver.authorize Receiver.handlerForGroup Receiver.handler at hst
  repeat' split at hst
  all_goals simp only [Option.or_eq_some_iff, Option.map_eq_some_iff, Option.some.injEq, reduceCtorEq,
    and_false, or_false, Option.some_or] at hst
  all_goals grind

/-- The outcome of a heartbeat that is dispatched. -/
def Receiver.own : Except (Option Code) AppendEntriesResponse :=
  match (r.refusal "BatchHeartbeats" h.1).map (·.code) with
  | some code => .error (some code)
  | none => (h.2 h.1.req).mapError fun _ => some .internal

theorem outcome_dispatchHeartbeatEntry : outcome (r.dispatchHeartbeatEntry h).answer = r.own h := by
  unfold Receiver.dispatchHeartbeatEntry Receiver.own
  rw [h.1.request_entry]
  cases r.refusal "BatchHeartbeats" h.1 with
  | some st => simp [heartbeatErrResult, HeartbeatResult.answer, outcome, Except.mapError, sendErr_code]
  | none => cases h.2 h.1.req <;>
      simp [heartbeatErrResult, HeartbeatResult.answer, outcome, Except.mapError, sendErr_code]

/-- The receiver has a result before the caller gives up. -/
def Receiver.inTime (c : HbCall) : Bool := (r.answersAt c).any (· ≤ c.remaining)

theorem outcome_alone {l : Link} (hlive : h.1.ctxErr = none) (hlink : l.clientErr = none) :
    outcome (alone l r h) =
      if r.inTime h.1 then r.own h else .error (some .deadlineExceeded) := by
  have hcode := refusal_code r "AppendEntries" "BatchHeartbeats" h.1
  unfold alone Receiver.inTime Receiver.appendEntries Receiver.own
  simp only [hlive, hlink]
  split_ifs
  · cases hrpc : r.refusal "AppendEntries" h.1 with
    | some st =>
      rw [hrpc, Option.map_some] at hcode
      simp [← hcode, outcome, Except.mapError, sendErr_code]
    | none =>
      rw [hrpc, Option.map_none] at hcode
      cases h.2 h.1.req <;> simp [← hcode, outcome, Except.mapError, sendErr_code]
  · simp [outcome, Except.mapError, sendErr_code, ContextError.status]

end Entry

section Collect

variable {results : List HeartbeatResult} {arrivals : List (Nat × HeartbeatResult)} {g d n : Nat}

theorem indexResults_concat (results : List HeartbeatResult) (res : HeartbeatResult) (g : Nat) :
    indexResults (results ++ [res]) g = if g = res.groupID then some res else indexResults results g := by
  simp [indexResults, List.foldl_append, Function.update_apply]

theorem exists_indexResults {res : HeartbeatResult} (h : res ∈ results) (hg : res.groupID = g) :
    ∃ res' ∈ results, res'.groupID = g ∧ indexResults results g = some res' := by
  induction results using List.reverseRecOn with
  | nil => cases h
  | append_singleton results last ih =>
    rw [indexResults_concat]
    split_ifs with hlast
    · exact ⟨last, by simp, hlast.symm, rfl⟩
    · have hmem : res ∈ results := (List.mem_append.mp h).resolve_right fun h =>
        hlast (List.mem_singleton.mp h ▸ hg.symm)
      obtain ⟨res', hres', hfound⟩ := ih hmem
      exact ⟨res', List.mem_append_left _ hres', hfound⟩

theorem collect_ok (hlen : arrivals.length = n) (h : ∀ a ∈ arrivals, a.1 ≤ d) :
    collect d n arrivals = .ok (arrivals.map (·.2)) := by
  induction arrivals generalizing n with
  | nil =>
    cases hlen
    rfl
  | cons a rest ih =>
    obtain ⟨ha, hrest⟩ := List.forall_mem_cons.mp h
    cases hlen
    rw [List.length_cons, collect, if_pos ha, ih rfl hrest, List.map_cons, Except.map]

theorem collect_error (hlen : arrivals.length ≤ n)
    (h : arrivals.length < n ∨ ∃ a ∈ arrivals, d < a.1) :
    collect d n arrivals = .error ContextError.deadlineExceeded.status := by
  induction arrivals generalizing n with
  | nil =>
    cases n with
    | zero => simp at h
    | succ n => rfl
  | cons a rest ih =>
    cases n with
    | zero => cases hlen
    | succ n =>
      rw [collect]
      split_ifs with ha
      · rw [ih (Nat.le_of_succ_le_succ hlen) ?_, Except.map]
        rcases h with h | ⟨b, hb, hlt⟩
        · exact .inl (Nat.lt_of_succ_lt_succ h)
        · rcases List.mem_cons.mp hb with rfl | hb
          · omega
          · exact .inr ⟨b, hb, hlt⟩
      · rfl

theorem lastArrival_le : (arrivals.map (·.1)).foldr max 0 ≤ d ↔ ∀ a ∈ arrivals, a.1 ≤ d := by
  induction arrivals with
  | nil => simp
  | cons a rest ih => simp [ih]

end Collect

/-! ## Batches -/

variable {l : Link} {r : Receiver} {hs : List Handled} {arrivals : List (Nat × HeartbeatResult)}

/-- The results the receiver comes to, with their times. -/
def Receiver.arriving (r : Receiver) (hs : List Handled) : List (Nat × HeartbeatResult) :=
  (hs.filter (·.1.live)).filterMap fun h => (r.answersAt h.1).map (·, r.dispatchHeartbeatEntry h)

theorem mem_arriving {a : Nat × HeartbeatResult} : a ∈ r.arriving hs ↔
    ∃ h ∈ hs, h.1.ctxErr = none ∧ r.answersAt h.1 = some a.1 ∧ r.dispatchHeartbeatEntry h = a.2 := by
  simp only [Receiver.arriving, List.mem_filterMap, List.mem_filter, HbCall.live, Option.isNone_iff_eq_none,
    Option.map_eq_some_iff, Prod.ext_iff, and_assoc]
  grind

/-- Every heartbeat that is sent has its result by the time `d`. -/
def Receiver.AllBy (r : Receiver) (batch : List HbCall) (d : Nat) : Prop :=
  ∀ c ∈ batch, c.ctxErr = none → ∃ t, r.answersAt c = some t ∧ t ≤ d

def batchTime (l : Link) (batch : List HbCall) : Nat :=
  batchDeadline (batch.filter HbCall.live) l.heartbeatRPCTimeout

section Batch

variable (harr : arrivals.Perm (r.arriving hs))

include harr

theorem Receiver.AllBy.arrives {d : Nat} (h : r.AllBy (hs.map (·.1)) d) : ∀ a ∈ arrivals, a.1 ≤ d := by
  intro a ha
  obtain ⟨h', hmem, hlive, hat, -⟩ := mem_arriving.mp (harr.mem_iff.mp ha)
  obtain ⟨t, ht, hle⟩ := h h'.1 (List.mem_map_of_mem hmem) hlive
  rw [ht] at hat
  cases hat
  exact hle

theorem length_arrivals_le : arrivals.length ≤ ((hs.map (·.1)).filter HbCall.live).length := by
  rw [harr.length_eq, List.filter_map, List.length_map]
  exact List.length_filterMap_le ..

theorem Receiver.AllBy.length_eq {d : Nat} (h : r.AllBy (hs.map (·.1)) d) :
    arrivals.length = ((hs.map (·.1)).filter HbCall.live).length := by
  rw [harr.length_eq, List.filter_map, List.length_map]
  refine List.filterMap_length_eq_length.mpr fun h' hmem => ?_
  obtain ⟨hmem, hlive⟩ := List.mem_filter.mp hmem
  obtain ⟨t, ht, -⟩ := h h'.1 (List.mem_map_of_mem hmem) (by simpa [HbCall.live] using hlive)
  simp [ht]

theorem not_allBy {d : Nat} (h : ¬ r.AllBy (hs.map (·.1)) d) :
    arrivals.length < ((hs.map (·.1)).filter HbCall.live).length ∨ ∃ a ∈ arrivals, d < a.1 := by
  unfold Receiver.AllBy at h
  push Not at h
  obtain ⟨c, hc, hlive, hlate⟩ := h
  obtain ⟨h', hmem, rfl⟩ := List.mem_map.mp hc
  cases hat : r.answersAt h'.1 with
  | none =>
    refine .inl ?_
    rw [harr.length_eq, List.filter_map, List.length_map]
    exact List.length_filterMap_lt_length_iff_exists.mpr
      ⟨h', List.mem_filter.mpr ⟨hmem, by simp [HbCall.live, hlive]⟩, by simp [hat]⟩
  | some t =>
    exact .inr ⟨(t, r.dispatchHeartbeatEntry h'),
      harr.mem_iff.mpr (mem_arriving.mpr ⟨h', hmem, hlive, hat, rfl⟩), hlate t hat⟩

variable (hlink : l.clientErr = none) {h : Handled} (hlive : h.1.ctxErr = none)

include hlink hlive

/-- A caller that the batch fails, or that has given up by then, gets an error of one code. -/
theorem outcome_batched_late (hlate : ¬ (r.AllBy (hs.map (·.1)) h.1.remaining ∧
      r.AllBy (hs.map (·.1)) (batchTime l (hs.map (·.1))))) :
    outcome (batched l (hs.map (·.1)) arrivals h.1) = .error (some .deadlineExceeded) := by
  unfold batchTime at hlate
  by_cases hall : r.AllBy (hs.map (·.1))
      (batchDeadline ((hs.map (·.1)).filter HbCall.live) l.heartbeatRPCTimeout)
  · -- the results are all there, but not for this caller
    have hover : ¬ (arrivals.map (·.1)).foldr max 0 ≤ h.1.remaining := fun hle => by
      rcases not_allBy harr fun hown => hlate ⟨hown, hall⟩ with hlt | ⟨a, ha, hlt⟩
      · have := hall.length_eq harr
        omega
      · have := lastArrival_le.mp hle a ha
        omega
    simp only [batched, hlive, send, hlink, collect_ok (hall.length_eq harr) (hall.arrives harr),
      if_pos (Nat.lt_of_not_le hover)]
    rfl
  · simp only [batched, hlive, send, hlink,
      collect_error (length_arrivals_le harr) (not_allBy harr hall)]
    split_ifs
    · rfl
    · simp [outcome, Except.mapError, sendErr_code, ContextError.status]

/-- A caller in time gets the last result of its group. -/
theorem outcome_batched_inTime (hown : r.AllBy (hs.map (·.1)) h.1.remaining)
    (hall : r.AllBy (hs.map (·.1)) (batchTime l (hs.map (·.1)))) :
    outcome (batched l (hs.map (·.1)) arrivals h.1) =
      outcome (match indexResults (arrivals.map (·.2)) h.1.groupID with
        | none => .error (.noResult h.1.groupID)
        | some res => res.answer) := by
  have hle := lastArrival_le.mpr (hown.arrives harr)
  unfold batchTime at hall
  simp only [batched, hlive, send, hlink, collect_ok (hall.length_eq harr) (hall.arrives harr),
    if_neg (Nat.not_lt.mpr hle)]

end Batch

/-- Two heartbeats that are sent are of different groups, or refused alike, if either of them would
be answered by itself. -/
def Receiver.Apart (r : Receiver) (c c' : HbCall) : Prop :=
  c.ctxErr = none → c'.ctxErr = none → c.groupID = c'.groupID →
    (r.inTime c = true ∨ r.inTime c' = true) → ∃ code,
      (r.refusal "BatchHeartbeats" c).map (·.code) = some code ∧
      (r.refusal "BatchHeartbeats" c').map (·.code) = some code

instance : Std.Symm fun h h' : Handled => r.Apart h.1 h'.1 where
  symm h h' happart hlive hlive' hgroup hin := by
    obtain ⟨code, hcode, hcode'⟩ := happart hlive' hlive hgroup.symm hin.symm
    exact ⟨code, hcode', hcode⟩

/-- The callers of a batch do not notice each other: whoever would be answered by itself waits long
enough for all of them, as the batch does, and their groups are apart. -/
structure Undisturbed (l : Link) (r : Receiver) (batch : List HbCall) : Prop where
  punctual : ∀ c ∈ batch, c.ctxErr = none → r.inTime c = true →
    r.AllBy batch c.remaining ∧ r.AllBy batch (batchTime l batch)
  apart : batch.Pairwise r.Apart

/-- Every caller gets what it would get by itself, in whatever order the results come in. -/
def Transparent (l : Link) (r : Receiver) (hs : List Handled) : Prop :=
  ∀ arrivals, arrivals.Perm (r.arriving hs) → ∀ h ∈ hs,
    outcome (batched l (hs.map (·.1)) arrivals h.1) = outcome (alone l r h)

theorem Undisturbed.transparent (hlink : l.clientErr = none) (hu : Undisturbed l r (hs.map (·.1))) :
    Transparent l r hs := by
  intro arrivals harr h hmem
  cases hctx : h.1.ctxErr with
  | some err => simp only [batched, alone, hctx]
  | none =>
    rw [outcome_alone r h hctx hlink]
    split_ifs with hin
    · obtain ⟨hown, hall⟩ := hu.punctual h.1 (List.mem_map_of_mem hmem) hctx hin
      rw [outcome_batched_inTime harr hlink hctx hown hall]
      obtain ⟨t, hat, -⟩ := hown h.1 (List.mem_map_of_mem hmem) hctx
      have hmine : r.dispatchHeartbeatEntry h ∈ arrivals.map (·.2) := List.mem_map.mpr
        ⟨(t, _), harr.mem_iff.mpr (mem_arriving.mpr ⟨h, hmem, hctx, hat, rfl⟩), rfl⟩
      obtain ⟨res, hres, hgroup, hfound⟩ := exists_indexResults hmine
        (dispatchHeartbeatEntry_groupID r h)
      rw [hfound]
      obtain ⟨a, ha, rfl⟩ := List.mem_map.mp hres
      obtain ⟨h', hmem', hlive', -, hdisp⟩ := mem_arriving.mp (harr.mem_iff.mp ha)
      rw [← hdisp, dispatchHeartbeatEntry_groupID] at hgroup
      dsimp only
      rw [← hdisp, outcome_dispatchHeartbeatEntry]
      -- the result is its own, or of a heartbeat that was refused alike
      by_cases heq : h = h'
      · rw [heq]
      · obtain ⟨code, hcode, hcode'⟩ := (List.pairwise_map.mp hu.apart).forall hmem hmem' heq hctx
          hlive' hgroup.symm (.inl hin)
        simp only [Receiver.own, hcode, hcode']
    · refine outcome_batched_late harr hlink hctx fun hboth => hin ?_
      obtain ⟨t, hat, hle⟩ := hboth.1 h.1 (List.mem_map_of_mem hmem) hctx
      simp [Receiver.inTime, hat, hle]

theorem Transparent.own_eq (ht : Transparent l r hs) (hlink : l.clientErr = none) {h h' : Handled}
    (hmem : h ∈ hs) (hmem' : h' ∈ hs) (hlive : h.1.ctxErr = none) (hlive' : h'.1.ctxErr = none)
    (hgroup : h.1.groupID = h'.1.groupID) (hin : r.inTime h.1 = true)
    (hown : r.AllBy (hs.map (·.1)) h.1.remaining)
    (hall : r.AllBy (hs.map (·.1)) (batchTime l (hs.map (·.1)))) : r.own h' = r.own h := by
  obtain ⟨t, hat, -⟩ := hown h'.1 (List.mem_map_of_mem hmem') hlive'
  -- the result of the other one arrives last
  have harr := (List.perm_append_singleton _ _).trans (List.perm_cons_erase
    (mem_arriving.mpr ⟨h', hmem', hlive', hat, rfl⟩ : (t, r.dispatchHeartbeatEntry h') ∈ r.arriving hs)).symm
  have hlast := ht _ harr h hmem
  rw [outcome_alone r h hlive hlink, if_pos hin, outcome_batched_inTime harr hlink hlive hown hall,
    List.map_append, List.map_singleton, indexResults_concat, dispatchHeartbeatEntry_groupID,
    if_pos hgroup] at hlast
  dsimp only at hlast
  rw [outcome_dispatchHeartbeatEntry] at hlast
  exact hlast

theorem own_ne_deadlineExceeded {h : Handled} {resp : AppendEntriesResponse} (hok : ∀ req, h.2 req = .ok resp) :
    r.own h ≠ .error (some .deadlineExceeded) := by
  unfold Receiver.own
  cases hst : r.refusal "BatchHeartbeats" h.1 with
  | some st => simpa using refusal_code_ne r hst
  | none => simp [hok, Except.mapError]

theorem Undisturbed.of_transparent {batch : List HbCall} (hlink : l.clientErr = none)
    (ht : ∀ hs : List Handled, hs.map (·.1) = batch → Transparent l r hs) : Undisturbed l r batch := by
  -- the handlers answer with the position of the heartbeat
  obtain ⟨hs, hbatch, hlen, hok⟩ : ∃ hs : List Handled, hs.map (·.1) = batch ∧ hs.length = batch.length ∧
      ∀ k (hk : k < hs.length) req, hs[k].2 req = .ok ⟨k, true, 0, 0⟩ :=
    ⟨batch.zipIdx.map fun p => (p.1, fun _ => .ok ⟨p.2, true, 0, 0⟩), by
      rw [List.map_map]; exact List.zipIdx_map_fst 0 batch, by simp, by simp⟩
  replace ht := ht hs hbatch
  subst hbatch
  have hpunctual : ∀ h ∈ hs, h.1.ctxErr = none → r.inTime h.1 = true →
      r.AllBy (hs.map (·.1)) h.1.remaining ∧ r.AllBy (hs.map (·.1)) (batchTime l (hs.map (·.1))) := by
    intro h hmem hlive hin
    by_contra hlate
    obtain ⟨k, hk, rfl⟩ := List.getElem_of_mem hmem
    have hsame := ht _ (.refl _) _ hmem
    rw [outcome_batched_late (.refl _) hlink hlive hlate, outcome_alone r _ hlive hlink, if_pos hin] at hsame
    exact own_ne_deadlineExceeded (hok k hk) hsame.symm
  refine ⟨fun c hc => ?_, List.pairwise_map.mpr (List.pairwise_iff_getElem.mpr ?_)⟩
  · obtain ⟨h, hmem, rfl⟩ := List.mem_map.mp hc
    exact hpunctual h hmem
  · intro i j hi hj hij hlive hlive' hgroup hin
    have hmem := List.getElem_mem hi
    have hmem' := List.getElem_mem hj
    have hown : r.own hs[j] = r.own hs[i] := by
      rcases hin with hin | hin
      · obtain ⟨h1, h2⟩ := hpunctual _ hmem hlive hin
        exact ht.own_eq hlink hmem hmem' hlive hlive' hgroup hin h1 h2
      · obtain ⟨h1, h2⟩ := hpunctual _ hmem' hlive' hin
        exact (ht.own_eq hlink hmem' hmem hlive' hlive hgroup.symm hin h1 h2).symm
    simp only [Receiver.own, hok, Except.mapError] at hown
    cases hst : (r.refusal "BatchHeartbeats" hs[i].1).map (·.code) <;>
      cases hst' : (r.refusal "BatchHeartbeats" hs[j].1).map (·.code) <;>
      simp only [hst, hst', Except.error.injEq, Except.ok.injEq, AppendEntriesResponse.mk.injEq,
        Option.some.injEq, reduceCtorEq] at hown
    · omega
    · exact ⟨_, rfl, congrArg some hown⟩

def sampleReceiver : Receiver := ⟨false, none, some fun g => g == 7 || g == 8, .found⟩

def sampleLink : Link := ⟨none, 5000000000⟩

def sampleHeartbeat : HbCall := ⟨7, ⟨3, [0x6c], 4, 3, [], 4, 0⟩, rfl, none, 500000000, some 1000000⟩

def sampleBarrier : HbCall := ⟨7, ⟨3, [0x6c], 9, 3, [], 4, 1⟩, rfl, none, 500000000, some 1000000⟩

def sampleStalled : HbCall := ⟨8, ⟨3, [0x6c], 4, 3, [], 4, 0⟩, rfl, none, 500000000, none⟩

end Raft.Transport
