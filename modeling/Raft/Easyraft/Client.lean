import Raft.Easyraft.Revisions

/-!
# Writes from a remote client

A client sends a write to the leader, and when it hears nothing, or that another node leads,
it may send the write again.  What a node answers does not say what becomes of a proposal:
one that was turned down, or whose answer was lost, may be committed later.

A write that is not repeated is still sent to the next endpoint after a failure, and to the
new leader after a redirect, and is then applied twice.  A conditional write is not, but
the revision 0 of a key that does not exist is back as soon as the key is deleted.
-/

namespace Raft.Easyraft

/-! ## Errors -/

/-- A condition the cluster describes. -/
inductive KnownError
  | keyNotFound | keyExists | revisionMismatch | leaseNotFound | reservedCollection | witness
  | unauthorized | forbidden | obsoleteSeqNum
  deriving DecidableEq, Repr

def KnownError.message : KnownError → String
  | keyNotFound => "easyraft: key not found"
  | keyExists => "easyraft: key already exists"
  | revisionMismatch => "easyraft: key has changed since the revision given"
  | leaseNotFound => "easyraft: lease not found"
  | reservedCollection => "easyraft: collection name is reserved for internal use"
  | witness => "easyraft: this node is a witness and holds no data"
  | unauthorized => "easyraft: unauthorized"
  | forbidden => "easyraft: forbidden"
  | obsoleteSeqNum => "raft: sequence number is obsolete"

/-- The conditions in the order an answer is searched for them. -/
def KnownError.all : List KnownError :=
  [keyNotFound, keyExists, revisionMismatch, leaseNotFound, reservedCollection, witness, unauthorized,
    forbidden, obsoleteSeqNum]

/-- Why a call failed. -/
inductive CallError
  | known (err : KnownError)
  | api (status : Nat) (message : String) (endpoint : String)
  | unusable (reason : String)
  | noEndpoint (last : CallError)
  | cancelled
  deriving DecidableEq

/-- An error answer, as an error. -/
def errorFor (endpoint : String) (status : Nat) (message : String) : CallError :=
  match KnownError.all.find? fun err => decide (err.message.toList <:+: message.toList) with
  | some err => .known err
  | none =>
    if status = 412 then .known .revisionMismatch
    else if status = 401 then .known .unauthorized
    else if status = 403 then .known .forbidden
    else if status = 404 then .known .keyNotFound
    else .api status message endpoint

/-- Whether another attempt could do better. -/
def retryable : CallError → Bool
  | .known _ => false
  | .api status _ _ => status == 503 || status == 408 || status == 429 || decide (500 ≤ status)
  | .unusable _ => true
  | .noEndpoint last => retryable last
  | .cancelled => true

/-- Whether another node might answer differently. -/
def worthAnotherEndpoint (err : CallError) : Bool :=
  retryable err || match err with
    | .noEndpoint _ => true
    | _ => false

/-! ## One call -/

/-- What comes back of one exchange. -/
inductive Answer
  | lost (reason : String)
  | redirect (location : Option String)
  | refused (status : Nat) (message : String)
  | ok (status : Nat) (body : Value)
  deriving DecidableEq

/-- What a client meets in one call: answers, whether the caller has given up, the last leader
seen. -/
structure World where
  answer : Nat → Answer
  cancelled : Nat → Bool
  gaveUp : Nat → Bool
  leader : Nat → String

/-- A client: its endpoints, how often it attempts a request that can be repeated, and how it reads
addresses. -/
structure Client where
  endpoints : List String
  attempts : Nat
  originOf : String → Except String String
  normalizeEndpoint : String → Except String String
  attempts_pos : 0 < attempts

def maxRedirects : Nat := 5

structure HTTPResponse where
  status : Nat
  body : Value

namespace Client

variable (c : Client) (w : World)

def redirected (endpoint : String) : Option String → Except CallError String
  | none => .error (.unusable ("easyraft/client: " ++ endpoint ++ " redirected with no Location"))
  | some location =>
    match c.originOf location with
    | .error reason => .error (.unusable ("easyraft/client: " ++ endpoint ++ ": " ++ reason))
    | .ok origin =>
      match c.normalizeEndpoint origin with
      | .error reason => .error (.unusable
          ("easyraft/client: " ++ endpoint ++ " redirected to an unusable address: " ++ reason))
      | .ok next =>
        if next = endpoint then
          .error (.unusable ("easyraft/client: " ++ endpoint ++ " redirected to itself"))
        else .ok next

/-- One endpoint, and the leaders it redirects to, after `n` exchanges. -/
def callFollowingLeader : Nat → String → Nat → Except CallError HTTPResponse × Nat
  | 0, _, n => (.error (.unusable "easyraft/client: more than 5 leader redirects in one attempt"), n)
  | k + 1, endpoint, n =>
    match w.answer n with
    | .lost reason => (.error (.unusable ("easyraft/client: " ++ endpoint ++ ": " ++ reason)), n + 1)
    | .refused status message => (.error (errorFor endpoint status message), n + 1)
    | .ok status body => (.ok ⟨status, body⟩, n + 1)
    | .redirect location =>
      match c.redirected endpoint location with
      | .error err => (.error err, n + 1)
      | .ok next => callFollowingLeader k next (n + 1)

/-- The endpoints to try, the last known leader first. -/
def order (leader : String) : List String :=
  if leader = "" then c.endpoints else leader :: c.endpoints.filter (· ≠ leader)

/-- One endpoint after the other, until an answer settles the matter. -/
def tryEndpoints : List String → Option CallError → Nat → Except CallError HTTPResponse × Nat
  | [], last, n => (.error (.noEndpoint
      (last.getD (.unusable "easyraft/client: no endpoints configured"))), n)
  | endpoint :: rest, _, n =>
    match c.callFollowingLeader w maxRedirects endpoint n with
    | (.ok resp, n) => (.ok resp, n)
    | (.error err, n) =>
      if w.cancelled n then (.error .cancelled, n)
      else if !worthAnotherEndpoint err then (.error err, n)
      else tryEndpoints rest (some err) n

/-- Every endpoint once. -/
def attempt (n : Nat) : Except CallError HTTPResponse × Nat := c.tryEndpoints w (c.order (w.leader n)) none n

/-- An attempt, and as many more as are left while they may do better. -/
def attemptUpTo (left n : Nat) : Except CallError HTTPResponse × Nat :=
  match c.attempt w n with
  | (.ok resp, n) => (.ok resp, n)
  | (.error err, n) =>
    if w.cancelled n then (.error .cancelled, n)
    else if !retryable err then (.error err, n)
    else match left with
      | 0 => (.error err, n)
      | left + 1 => if w.gaveUp n then (.error .cancelled, n) else attemptUpTo left n

/-- One call: the outcome, and how many exchanges were made. -/
def run (idempotent : Bool) : Except CallError HTTPResponse × Nat :=
  c.attemptUpTo w (if idempotent then c.attempts - 1 else 0) 0

end Client

/-! ## When a client sends again -/

/-- An answer after which the client has nothing more to ask. -/
def Answer.settled : Answer → Bool
  | .ok _ _ => true
  | .refused status message => !retryable (errorFor "" status message)
  | .lost _ | .redirect _ => false

theorem retryable_errorFor (endpoint endpoint' : String) (status : Nat) (message : String) :
    retryable (errorFor endpoint status message) = retryable (errorFor endpoint' status message) := by
  unfold errorFor
  split
  · rfl
  · split_ifs <;> rfl

/-- From `n` exchanges on, every exchange was left unsettled, the last one if the client goes
on. -/
structure Trail (w : World) (n : Nat) (out : Except CallError HTTPResponse × Nat) : Prop where
  le : n ≤ out.2
  before : ∀ i, n ≤ i → i + 1 < out.2 → (w.answer i).settled = false
  failed : ∀ err, out.1 = .error err → err ≠ .cancelled → retryable err = true →
    ∀ i, n ≤ i → i < out.2 → (w.answer i).settled = false

section Trails

variable {c : Client} {w : World} {i m n : Nat}

theorem Trail.nil (w : World) (n : Nat) (res : Except CallError HTTPResponse) : Trail w n (res, n) :=
  ⟨le_rfl, fun i hi hlt => by dsimp only at hlt; omega, fun _ _ _ _ i hi hlt => by
    omega⟩

theorem Trail.one {res : Except CallError HTTPResponse}
    (h : ∀ err, res = .error err → retryable err = true → (w.answer n).settled = false) :
    Trail w n (res, n + 1) where
  le := Nat.le_succ n
  before := fun i hi hlt => by dsimp only at hlt; omega
  failed := by
    intro err herr _ hretry i hi hlt
    obtain rfl : i = n := by dsimp only at hlt; omega
    exact h err herr hretry

theorem Trail.trans {err : CallError} {out : Except CallError HTTPResponse × Nat}
    (h : Trail w n (.error err, m)) (hne : err ≠ .cancelled) (hretry : retryable err = true)
    (h' : Trail w m out) : Trail w n out where
  le := h.le.trans h'.le
  before i hi hlt := (Nat.lt_or_ge i m).elim (h.failed err rfl hne hretry i hi)
    fun him => h'.before i him hlt
  failed err' herr' hne' hretry' i hi hlt := (Nat.lt_or_ge i m).elim
    (h.failed err rfl hne hretry i hi) fun him => h'.failed err' herr' hne' hretry' i him hlt

theorem Trail.cancel {res : Except CallError HTTPResponse} (h : Trail w n (res, m)) :
    Trail w n (.error .cancelled, m) :=
  { h with failed := fun _ herr hne => absurd (Except.error.inj herr).symm hne }

theorem callFollowingLeader_trail (k : Nat) (endpoint : String) (n : Nat) :
    Trail w n (c.callFollowingLeader w k endpoint n) := by
  induction k generalizing endpoint n with
  | zero => exact .nil w n _
  | succ k ih =>
    rw [Client.callFollowingLeader]
    cases hanswer : w.answer n with
    | lost reason => exact .one fun _ _ _ => by rw [hanswer]; rfl
    | refused status message =>
      refine .one fun err herr hretry => ?_
      cases herr
      rw [retryable_errorFor endpoint ""] at hretry
      simp [hanswer, Answer.settled, hretry]
    | ok status body => exact .one fun err herr => by cases herr
    | redirect location =>
      have hopen : (w.answer n).settled = false := by rw [hanswer]; rfl
      dsimp only
      cases c.redirected endpoint location with
      | error err => exact .one fun _ _ _ => hopen
      | ok next =>
        have hone : Trail w n (.error (.unusable "redirected"), n + 1) := .one fun _ _ _ => hopen
        exact hone.trans (by simp) rfl (ih next (n + 1))

theorem callFollowingLeader_redirects (k : Nat) (endpoint : String) (n : Nat) (hi : n ≤ i)
    (hlt : i + 1 < (c.callFollowingLeader w k endpoint n).2) :
    ∃ location, w.answer i = .redirect location := by
  induction k generalizing endpoint n with
  | zero => simp only [Client.callFollowingLeader] at hlt; omega
  | succ k ih =>
    rw [Client.callFollowingLeader] at hlt
    cases hanswer : w.answer n with
    | lost reason | refused status message | ok status body => simp only [hanswer] at hlt; omega
    | redirect location =>
      rcases hi.eq_or_lt with rfl | hi
      · exact ⟨location, hanswer⟩
      · simp only [hanswer] at hlt
        cases hnext : c.redirected endpoint location with
        | error err => simp only [hnext] at hlt; omega
        | ok next =>
          simp only [hnext] at hlt
          exact ih next (n + 1) hi hlt

theorem callFollowingLeader_error {k : Nat} {endpoint : String} {err : CallError}
    (h : (c.callFollowingLeader w k endpoint n).1 = .error err) :
    err ≠ .cancelled ∧ ∀ last, err ≠ .noEndpoint last := by
  induction k generalizing endpoint n with
  | zero =>
    cases h
    simp
  | succ k ih =>
    rw [Client.callFollowingLeader] at h
    cases hanswer : w.answer n with
    | lost reason =>
      simp only [hanswer] at h
      cases h
      simp
    | refused status message =>
      simp only [hanswer] at h
      cases h
      unfold errorFor
      split
      · simp
      · split_ifs <;> simp
    | ok status body => simp [hanswer] at h
    | redirect location =>
      simp only [hanswer] at h
      cases hnext : c.redirected endpoint location with
      | ok next => simp only [hnext] at h; exact ih h
      | error err' =>
        simp only [hnext] at h
        cases h
        unfold Client.redirected at hnext
        repeat' split at hnext
        all_goals cases hnext <;> simp

theorem tryEndpoints_trail (endpoints : List String) (last : Option CallError) (n : Nat) :
    Trail w n (c.tryEndpoints w endpoints last n) := by
  induction endpoints generalizing last n with
  | nil => exact .nil w n _
  | cons endpoint rest ih =>
    rw [Client.tryEndpoints]
    have htrail := callFollowingLeader_trail (c := c) (w := w) maxRedirects endpoint n
    rcases hcall : c.callFollowingLeader w maxRedirects endpoint n with ⟨err | resp, m⟩ <;>
      rw [hcall] at htrail
    · obtain ⟨hne, hnone⟩ := callFollowingLeader_error (by rw [hcall])
      dsimp only
      split_ifs with hcancelled hworth
      · exact htrail.cancel
      · exact htrail
      · have hretry : retryable err = true := by
          cases err with
          | noEndpoint last => exact absurd rfl (hnone last)
          | _ => simpa [worthAnotherEndpoint] using hworth
        exact htrail.trans hne hretry (ih (some err) m)
    · exact htrail

theorem tryEndpoints_cancelled {endpoints : List String} {last : Option CallError}
    (h : c.tryEndpoints w endpoints last n = (.error .cancelled, m)) : w.cancelled m = true := by
  induction endpoints generalizing last n with
  | nil => cases h
  | cons endpoint rest ih =>
    rw [Client.tryEndpoints] at h
    rcases hcall : c.callFollowingLeader w maxRedirects endpoint n with ⟨err | resp, m'⟩ <;>
      rw [hcall] at h
    · dsimp only at h
      split_ifs at h with hcancelled hworth
      · cases h
        exact hcancelled
      · cases h
        exact absurd rfl (callFollowingLeader_error (by rw [hcall])).1
      · exact ih h
    · cases h

theorem attemptUpTo_trail (left n : Nat) : Trail w n (c.attemptUpTo w left n) := by
  unfold Client.attemptUpTo
  have htrail := tryEndpoints_trail (c := c) (w := w) (c.order (w.leader n)) none n
  rcases hattempt : c.attempt w n with ⟨err | resp, m⟩ <;> rw [← Client.attempt, hattempt] at htrail
  · dsimp only
    split_ifs with hcancelled hretry hgave
    · exact htrail.cancel
    · exact htrail
    · match left with
      | 0 => exact htrail
      | left + 1 => exact htrail.cancel
    · match left with
      | 0 => exact htrail
      | left + 1 =>
        refine htrail.trans ?_ (by simpa using hretry) (attemptUpTo_trail left m)
        rintro rfl
        exact hcancelled (tryEndpoints_cancelled hattempt)
  · exact htrail

/-- **A client sends again only after an answer that settles nothing.** -/
theorem Client.run_trail (idempotent : Bool) (h : i + 1 < (c.run w idempotent).2) :
    (w.answer i).settled = false :=
  (attemptUpTo_trail _ 0).before i i.zero_le h

theorem Client.run_redirects (hone : (c.order (w.leader 0)).length ≤ 1)
    (h : i + 1 < (c.run w false).2) : ∃ location, w.answer i = .redirect location := by
  have hmade : (c.run w false).2 = (c.attempt w 0).2 := by
    rw [Client.run, if_neg Bool.false_ne_true, Client.attemptUpTo]
    obtain ⟨err | resp, m⟩ := c.attempt w 0
    · dsimp only
      split_ifs <;> rfl
    · rfl
  rw [hmade, Client.attempt] at h
  match horder : c.order (w.leader 0), hone with
  | [], _ =>
    rw [horder] at h
    cases h
  | [endpoint], _ =>
    refine callFollowingLeader_redirects (c := c) maxRedirects endpoint 0 i.zero_le ?_
    rw [horder, Client.tryEndpoints] at h
    rcases hcall : c.callFollowingLeader w maxRedirects endpoint 0 with ⟨err | resp, m⟩ <;>
      rw [hcall] at h
    · dsimp only at h
      split_ifs at h <;> exact h
    · exact h

end Trails

/-! ## At most once -/

/-- What a client asks the cluster to write. -/
inductive Call
  | write (o : Operation)
  | batch (cmds : List Command)
  | grantLease (ttlMillis : UInt64)

/-- Whether a call may be attempted more than once; `once` says that it has an identity. -/
def Call.idempotent (once : Bool) : Call → Bool
  | .write o => once || o.ifRev.isSome
  | .batch _ | .grantLease _ => once

/-- The commands a node may propose for a call.  A lease is granted by the clock of the node. -/
def Call.Proposes : Call → Command → Prop
  | .write o, cmd => cmd = .single o
  | .batch cmds, cmd => cmd = .batch cmds
  | .grantLease ttlMillis, cmd => ∃ now, cmd = .single
      { Operation.on .leaseGrant ⟨"", ""⟩ [] "" with leaseTTLMillis := ttlMillis, leaseNowMillis := now }

/-- Operations that change their key if they pass. -/
def Operation.isWrite (o : Operation) : Bool :=
  match o.op with
  | .create | .update | .upsert | .delete | .mutate => true
  | _ => false

/-- The position in the log of the entry an exchange led to, if it led to one. -/
structure Committed (es : List Entry) (call : Call) (entry : Nat → Option Nat) : Prop where
  command : ∀ i n, entry i = some n → ∃ e cmd, es[n]? = some e ∧ e.cmd = some cmd ∧ call.Proposes cmd
  apart : ∀ i j n, entry i = some n → entry j = some n → i = j

/-- The entry at a position of the log takes effect. -/
def Applied (env : Env) (es : List Entry) (n : Nat) : Prop :=
  ∃ e, es[n]? = some e ∧ (Store.after env (es.take n)).Succeeds env e

/-- **A call is applied at most once**: no two of the exchanges it made take effect. -/
def AtMostOnce (env : Env) (es : List Entry) (entry : Nat → Option Nat) (made : Nat) : Prop :=
  ∀ i j n m, i < made → j < made → entry i = some n → entry j = some m →
    Applied env es n → Applied env es m → i = j

/-- The exchanges made for a call that settle nothing are not committed; or there is one endpoint to
ask, and what it redirects is not committed; or the call is a write on condition of a revision, imports
are fresh, and a key that was not to exist stays. -/
inductive SafeCall (env : Env) (es : List Entry) (c : Client) (w : World) (call : Call)
    (entry : Nat → Option Nat) : Prop
  | settled (h : ∀ i < (c.run w (call.idempotent false)).2, (w.answer i).settled = false → entry i = none)
  | oneEndpoint (hplain : call.idempotent false = false) (hone : (c.order (w.leader 0)).length ≤ 1)
      (h : ∀ i < (c.run w false).2, ∀ location, w.answer i = .redirect location → entry i = none)
  | revision {o : Operation} {rev : Nat} (hcall : call = .write o) (hwrite : o.isWrite = true)
      (hif : o.ifRev = some rev) (hfresh : FreshImports env es)
      (hstays : rev = 0 → ∀ i < (c.run w true).2, ∀ n, entry i = some n → Applied env es n →
        ∀ m, n < m → m < es.length → ((Store.after env (es.take m)).valueAt o.ref).isSome = true)

variable {e : Entry} {m n : Nat}

section Once

variable {env : Env} {es : List Entry} {o : Operation} {entry : Nat → Option Nat}

theorem write_applied {s : Store} (hcmd : e.cmd = some (.single o)) (hwrite : o.isWrite = true)
    (h : s.Succeeds env e) :
    (∀ rev, o.ifRev = some rev → (s.revAt o.ref).getD 0 = rev) ∧ touches (s.applyEntry env e).2.1 o.ref := by
  have hkey : o.onKey = true := by
    unfold Operation.isWrite at hwrite
    unfold Operation.onKey
    cases hop : o.op <;> simp_all
  have hcheck : o.op ≠ .check := by
    intro hop
    simp [Operation.isWrite, hop] at hwrite
  obtain ⟨x, y, hx, ⟨⟨effect, r⟩, hverdict⟩, -⟩ :=
    ran_of_succeeds hcmd h (by rintro o' ho'; cases ho'; exact hkey)
  have hpassed := verdict_ok hverdict
  constructor
  · intro rev hif
    have hfound := hpassed.revision rev hif
    rw [(openCollection_spec x o.ref.collection).revAt, hx] at hfound
    exact hfound
  · have hevents : (s.applyEntry env e).2.1 = (o.step env x).events := by
      have hstep : o.step env ⟨{ s with pendingEvents := [] }, none⟩ = o.step env x := by
        unfold Operation.step Session.openCollection
        rw [hx]
      unfold Store.applyEntry
      simp only [hcmd, applyCommand, applySingle_of_onKey hkey]
      rw [applyToKey_fst, step_pendingEvents, hstep]
      rfl
    rw [hevents, Operation.step, hverdict]
    cases effect with
    | keep => exact absurd (hpassed.kept.mp rfl) hcheck
    | put value | drop => exact ⟨_, List.mem_cons_self, rfl⟩

theorem not_applied_twice (hlog : InLogOrder es) (hfresh : FreshImports env es) {rev : Nat}
    (hif : o.ifRev = some rev) (hwrite : o.isWrite = true) {e' : Entry} (hnm : n < m)
    (he : es[n]? = some e) (hcmd : e.cmd = some (.single o))
    (h : (Store.after env (es.take n)).Succeeds env e) (hcmd' : e'.cmd = some (.single o))
    (h' : (Store.after env (es.take m)).Succeeds env e')
    (hstays : rev = 0 → ((Store.after env (es.take m)).valueAt o.ref).isSome = true) : False := by
  obtain ⟨hfound, htouches⟩ := write_applied hcmd hwrite h
  have hagain := (write_applied hcmd' hwrite h').1 rev hif
  have hfirst := hfound rev hif
  have hbelow := revsBelow hlog hfresh m
  rcases Nat.eq_zero_or_pos rev with hzero | hpos
  · -- the key exists when the second copy comes, so its revision is not 0
    obtain ⟨r, hr⟩ := Option.isSome_iff_exists.mp ((hbelow.tidy o.ref).mp (hstays hzero))
    have hr0 := (hbelow.below o.ref r hr).1
    rw [hr, Option.getD_some] at hagain
    omega
  · -- the key has the revision at both, though the first copy has replaced it
    have hrev : ∀ s : Store, (s.revAt o.ref).getD 0 = rev → s.revAt o.ref = some rev := by
      intro s hs
      cases hr : s.revAt o.ref with
      | none => rw [hr, Option.getD_none] at hs; omega
      | some r => rw [hr, Option.getD_some] at hs; rw [hs]
    exact not_replaces_of_revAt hlog hfresh hnm.le (hrev _ hfirst) (hrev _ hagain) n le_rfl hnm
      ⟨e, he, .inl htouches⟩

/-- **A safe call is applied at most once.** -/
theorem atMostOnce_of_safe {c : Client} {w : World} {call : Call} (hlog : InLogOrder es)
    (hcommitted : Committed es call entry) (hsafe : SafeCall env es c w call entry) :
    AtMostOnce env es entry (c.run w (call.idempotent false)).2 := by
  -- without a condition, an exchange that another follows is not committed
  have of_earlier : (∀ i, i + 1 < (c.run w (call.idempotent false)).2 → entry i = none) →
      AtMostOnce env es entry (c.run w (call.idempotent false)).2 := by
    intro hnone i j n m hi hj hn hm _ _
    rcases Nat.lt_trichotomy i j with hlt | heq | hlt
    · cases (hnone i (by omega)).symm.trans hn
    · exact heq
    · cases (hnone j (by omega)).symm.trans hm
  cases hsafe with
  | settled h => exact of_earlier fun i hi => h i (by omega) (Client.run_trail _ hi)
  | oneEndpoint hplain hone h =>
    refine of_earlier fun i hi => ?_
    rw [hplain] at hi
    obtain ⟨location, hanswer⟩ := Client.run_redirects hone hi
    exact h i (by omega) location hanswer
  | @revision o rev hcall hwrite hif hfresh hstays =>
    subst hcall
    have hidem : (Call.write o).idempotent false = true := by simp [Call.idempotent, hif]
    rw [hidem]
    -- of two copies the later one finds another revision
    have hlate : ∀ i j n m, i < (c.run w true).2 → n < m → entry i = some n → entry j = some m →
        Applied env es n → Applied env es m → False := by
      intro i j n m hi hnm hn hm happ happ'
      obtain ⟨e, _, he, hcmd, rfl⟩ := hcommitted.command i n hn
      obtain ⟨e', _, he', hcmd', rfl⟩ := hcommitted.command j m hm
      have hthere : rev = 0 → ((Store.after env (es.take m)).valueAt o.ref).isSome = true :=
        fun hzero => hstays hzero i hi n hn happ m hnm (List.getElem?_eq_some_iff.mp he').1
      obtain ⟨_, h1, hsucceeds⟩ := happ
      obtain ⟨_, h2, hsucceeds'⟩ := happ'
      cases he.symm.trans h1
      cases he'.symm.trans h2
      exact not_applied_twice hlog hfresh hif hwrite hnm he hcmd hsucceeds hcmd' hsucceeds' hthere
    intro i j n m hi hj hn hm happ happ'
    rcases Nat.lt_trichotomy n m with hlt | rfl | hlt
    · exact (hlate i j n m hi hlt hn hm happ happ').elim
    · exact hcommitted.apart i j n hn hm
    · exact (hlate j i m n hj hlt hm hn happ' happ).elim

end Once

/-! ## Writes that are applied twice -/

def clientOf (endpoints : List String) : Client where
  endpoints := endpoints
  attempts := 3
  originOf := .ok
  normalizeEndpoint := .ok
  attempts_pos := by decide

/-- The first answer is lost, and every other one is good. -/
def lostOnce : World where
  answer := fun i => if i = 0 then .lost "EOF" else .ok 204 []
  cancelled := fun _ => false
  gaveUp := fun _ => false
  leader := fun _ => ""

def upsertOf (ifRev : Option Nat) : Operation :=
  ⟨.upsert, ⟨"jobs", "a"⟩, [0x31], "", [], ifRev, 0, 0, 0, none⟩

def twoCopies : List Entry := [writes 1 "a" none, writes 2 "a" none]

/-- The key did not exist when the first copy came, and another client has deleted it again before the
second. -/
def deletedBetween : List Entry :=
  [writes 1 "a" (some 0), ⟨2, some (.single (.on .delete ⟨"jobs", "a"⟩ [] ""))⟩, writes 3 "a" (some 0)]

def copiesAt (n m : Nat) : Nat → Option Nat
  | 0 => some n
  | 1 => some m
  | _ => none

theorem copiesAt_apart (hne : n ≠ m) {i j k : Nat} (hi : copiesAt n m i = some k)
    (hj : copiesAt n m j = some k) : i = j := by
  match i, j with
  | 0, 0 | 1, 1 => rfl
  | 0, 1 => exact absurd ((Option.some.inj hi).trans (Option.some.inj hj).symm) hne
  | 1, 0 => exact absurd ((Option.some.inj hj).trans (Option.some.inj hi).symm) hne
  | i + 2, _ => cases hi
  | _, j + 2 => cases hj

theorem copiesAt_committed {es : List Entry} {o : Operation} (hne : n ≠ m) {e' : Entry}
    (he : es[n]? = some e) (hcmd : e.cmd = some (.single o)) (he' : es[m]? = some e')
    (hcmd' : e'.cmd = some (.single o)) : Committed es (.write o) (copiesAt n m) where
  command := by
    intro i k hi
    match i with
    | 0 =>
      cases hi
      exact ⟨e, _, he, hcmd, rfl⟩
    | 1 =>
      cases hi
      exact ⟨e', _, he', hcmd', rfl⟩
    | i + 2 => cases hi
  apart := fun i j k hi hj => copiesAt_apart hne hi hj

/-- The write is sent again when the first answer is lost, and both copies take effect; a write of a
new key takes effect again after the key has been deleted. -/
theorem sent_twice :
    (InLogOrder twoCopies ∧ Committed twoCopies (.write (upsertOf none)) (copiesAt 0 1) ∧
      ¬ AtMostOnce jobs twoCopies (copiesAt 0 1) ((clientOf ["http://a", "http://b"]).run lostOnce
        ((Call.write (upsertOf none)).idempotent false)).2) ∧
    InLogOrder deletedBetween ∧ Committed deletedBetween (.write (upsertOf (some 0))) (copiesAt 0 2) ∧
      ¬ AtMostOnce jobs deletedBetween (copiesAt 0 2) ((clientOf ["http://a"]).run lostOnce
        ((Call.write (upsertOf (some 0))).idempotent false)).2 := by
  have hfirst : Applied jobs twoCopies 0 := ⟨_, rfl, by unfold Store.Succeeds; decide +kernel⟩
  have hsecond : Applied jobs twoCopies 1 := ⟨_, rfl, by unfold Store.Succeeds; decide +kernel⟩
  have hcreated : Applied jobs deletedBetween 0 := ⟨_, rfl, by unfold Store.Succeeds; decide +kernel⟩
  have hagain : Applied jobs deletedBetween 2 := ⟨_, rfl, by unfold Store.Succeeds; decide +kernel⟩
  refine ⟨⟨⟨by simp [twoCopies, writes], by simp [twoCopies, writes]⟩,
      copiesAt_committed (by decide) rfl rfl rfl rfl, fun honce => ?_⟩,
    ⟨by simp [deletedBetween, writes], by simp [deletedBetween, writes]⟩,
    copiesAt_committed (by decide) rfl rfl rfl rfl, fun honce => ?_⟩
  · exact absurd (honce 0 1 0 1 (by decide) (by decide) rfl rfl hfirst hsecond) (by decide)
  · exact absurd (honce 0 1 0 2 (by decide) (by decide) rfl rfl hcreated hagain) (by decide)

def refusedOnce : List Entry := [writes 1 "a" none, writes 2 "a" (some 1), writes 3 "a" (some 1)]

theorem refusedOnce_atMostOnce :
    AtMostOnce jobs refusedOnce (copiesAt 1 2) ((clientOf ["http://a", "http://b"]).run lostOnce
      ((Call.write (upsertOf (some 1))).idempotent false)).2 := by
  refine atMostOnce_of_safe ⟨by simp [refusedOnce, writes], by simp [refusedOnce, writes]⟩
    (copiesAt_committed (by decide) rfl rfl rfl rfl) (.revision rfl rfl rfl ?_ fun hzero => by cases hzero)
  intro n e d he himports
  rcases n with _ | _ | _ | n <;> cases he <;> cases himports

end Raft.Easyraft
