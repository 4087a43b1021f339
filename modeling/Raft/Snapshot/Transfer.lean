import Mathlib.Data.Set.Basic
import Raft.Node.Snapshots

/-!
# Sending a snapshot in chunks

A leader reads a snapshot in pieces of the chunk size and sends each with its offset; a
piece that could not be filled is the last one.  A receiver takes a chunk that starts where
the last one ended, hands it to the goroutine that writes the snapshot, and lets that
goroutine finish at the last chunk.

With a chunk size of 0, which the configuration allows as "send whole snapshots", every
read is filled by nothing: the sender sends empty chunks for ever.  And the receiver knows
a transfer by the index of its snapshot alone, so that a chunk of an earlier transfer
continues a later one if its offset fits, whether or not the two carry the same bytes.
-/

namespace Raft

namespace Transfer

variable {ι : Type}

/-! ## The sender -/

/-- One message of a transfer. -/
structure Chunk (ι : Type) where
  term : Nat
  leaderID : ι
  position : SnapshotMeta
  offset : Nat
  data : List UInt8
  done : Bool
  deriving DecidableEq, Repr

structure Outgoing (ι : Type) where
  term : Nat
  leaderID : ι
  position : SnapshotMeta
  content : List UInt8
  chunkSize : Nat
  deriving DecidableEq, Repr

inductive Reply
  | ok
  | failed
  | newerTerm
  deriving DecidableEq, Repr

inductive Ending
  | completed
  | dropped
  | superseded
  | running
  deriving DecidableEq, Repr

/-- The chunk read where `rest` is left.  A read that fills the buffer reports no end. -/
def Outgoing.piece (t : Outgoing ι) (offset : Nat) (rest : List UInt8) : Chunk ι :=
  ⟨t.term, t.leaderID, t.position, offset, rest.take t.chunkSize, rest.length < t.chunkSize⟩

/-- **The sender**, for a number of rounds: what it sends, and how it ends. -/
def sendLoop (t : Outgoing ι) (replies : Nat → Reply) :
    Nat → Nat → Nat → List UInt8 → List (Chunk ι) × Ending
  | 0, _, _, _ => ([], .running)
  | rounds + 1, k, offset, rest =>
    let chunk := t.piece offset rest
    match replies k with
    | .failed => ([chunk], .dropped)
    | .newerTerm => ([chunk], .superseded)
    | .ok =>
      if chunk.done then ([chunk], .completed)
      else
        let (chunks, ending) := sendLoop t replies rounds (k + 1) (offset + chunk.data.length)
          (rest.drop t.chunkSize)
        (chunk :: chunks, ending)

def Outgoing.sends (t : Outgoing ι) (replies : Nat → Reply) (rounds : Nat) :
    List (Chunk ι) × Ending :=
  sendLoop t replies rounds 0 0 t.content

structure Carries (chunks : List (Chunk ι)) (content : List UInt8) : Prop where
  bytes : chunks.flatMap (·.data) = content
  marked : ∃ n, chunks.map (·.done) = List.replicate n false ++ [true]

theorem Carries.cons {chunk : Chunk ι} {chunks : List (Chunk ι)} {content : List UInt8}
    (h : Carries chunks content) (hdone : chunk.done = false) :
    Carries (chunk :: chunks) (chunk.data ++ content) := by
  obtain ⟨n, hn⟩ := h.marked
  refine ⟨by rw [List.flatMap_cons, h.bytes], n + 1, ?_⟩
  rw [List.map_cons, hn, hdone, List.replicate_succ, List.cons_append]

variable {t : Outgoing ι} {ts : Set (Outgoing ι)}

/-- **A sender whose chunks are all taken** sends all that is left and ends. -/
theorem sendLoop_ok (hpos : 0 < t.chunkSize) {rounds : Nat} {rest : List UInt8}
    (h : rest.length < rounds) (k offset : Nat) :
    (sendLoop t (fun _ => .ok) rounds k offset rest).2 = .completed ∧
      Carries (sendLoop t (fun _ => .ok) rounds k offset rest).1 rest := by
  induction rounds generalizing k offset rest with
  | zero => omega
  | succ rounds ih =>
    rw [sendLoop]
    by_cases hlast : rest.length < t.chunkSize
    · have hdone : (t.piece offset rest).done = true := decide_eq_true hlast
      simp only [hdone, if_true, true_and]
      refine ⟨?_, 0, by rw [List.map_singleton, hdone]; rfl⟩
      rw [List.flatMap_singleton]
      exact List.take_of_length_le hlast.le
    · have hdone : (t.piece offset rest).done = false := decide_eq_false hlast
      -- A full piece takes at least one byte, so a round less is enough for what is left.
      have hshort : (rest.drop t.chunkSize).length < rounds := by
        rw [List.length_drop]
        omega
      obtain ⟨hend, hcarries⟩ := ih hshort (k + 1) (offset + (t.piece offset rest).data.length)
      simp only [hdone, Bool.false_eq_true, if_false]
      refine ⟨hend, ?_⟩
      have hall := hcarries.cons hdone
      rwa [show (t.piece offset rest).data = rest.take t.chunkSize from rfl,
        List.take_append_drop] at hall

/-- **A sender with chunk size 0** never ends by itself. -/
theorem sendLoop_zero (hzero : t.chunkSize = 0) (rounds k offset : Nat) (rest : List UInt8) :
    (sendLoop t (fun _ => .ok) rounds k offset rest).2 = .running := by
  induction rounds generalizing k offset rest with
  | zero => rfl
  | succ rounds ih =>
    have hfull : ¬ rest.length < t.chunkSize := by omega
    have hdone : (t.piece offset rest).done = false := decide_eq_false hfull
    rw [sendLoop]
    simp only [hdone, Bool.false_eq_true, if_false]
    exact ih ..

def Outgoing.Sent (t : Outgoing ι) (chunk : Chunk ι) : Prop :=
  ∃ offset ≤ t.content.length, chunk = t.piece offset (t.content.drop offset)

theorem sent_of_mem_sendLoop {replies : Nat → Reply} {rounds k offset : Nat}
    (hoff : offset ≤ t.content.length) {chunk : Chunk ι}
    (h : chunk ∈ (sendLoop t replies rounds k offset (t.content.drop offset)).1) :
    t.Sent chunk := by
  induction rounds generalizing k offset with
  | zero => cases h
  | succ rounds ih =>
    have hfirst : t.Sent (t.piece offset (t.content.drop offset)) := ⟨offset, hoff, rfl⟩
    rw [sendLoop] at h
    dsimp only at h
    cases hreply : replies k with
    | failed | newerTerm =>
      simp only [hreply, List.mem_singleton] at h
      exact h ▸ hfirst
    | ok =>
      simp only [hreply] at h
      split_ifs at h with hdone
      · exact List.mem_singleton.mp h ▸ hfirst
      · -- a piece that is not the last fills its chunk
        have hfull : t.chunkSize ≤ (t.content.drop offset).length := by
          simpa [Outgoing.piece] using hdone
        have hlen : (t.piece offset (t.content.drop offset)).data.length = t.chunkSize :=
          List.length_take_of_le hfull
        rw [List.length_drop] at hfull
        rw [hlen, List.drop_drop] at h
        rcases List.mem_cons.mp h with rfl | h
        · exact hfirst
        · exact ih (by omega) h

/-! ## The receiver -/

/-- An installation: its channel, what is left of a chunk, and where the next one is to start. -/
structure Install where
  position : SnapshotMeta
  queue : List (List UInt8)
  buf : List UInt8
  written : List UInt8
  expectedOff : Nat
  deriving DecidableEq, Repr

namespace Install

def new (position : SnapshotMeta) : Install := ⟨position, [], [], [], 0⟩

def bytes (p : Install) : List UInt8 := p.written ++ p.buf ++ p.queue.flatten

def push (p : Install) (data : List UInt8) : Install :=
  { p with
    queue := p.queue ++ [data]
    expectedOff := p.expectedOff + data.length }

/-- `chunkReader.Read` with a buffer of `k` bytes: first what is left of a chunk, then the next
one. -/
def read (p : Install) (k : Nat) : Install :=
  if p.buf ≠ [] then
    { p with
      written := p.written ++ p.buf.take k
      buf := p.buf.drop k }
  else match p.queue with
    | [] => p
    | chunk :: queue =>
      { p with
        queue := queue
        written := p.written ++ chunk.take k
        buf := chunk.drop k }

theorem bytes_read (p : Install) (k : Nat) : (p.read k).bytes = p.bytes := by
  unfold read
  split_ifs with hbuf
  · simp [bytes]
  · cases hqueue : p.queue with
    | nil => rfl
    | cons chunk queue =>
      have hnil : p.buf = [] := not_not.mp hbuf
      simp [bytes, hqueue, hnil]

@[simp] theorem position_read (p : Install) (k : Nat) : (p.read k).position = p.position := by
  unfold read
  split_ifs
  · rfl
  · cases p.queue <;> rfl

@[simp] theorem expectedOff_read (p : Install) (k : Nat) :
    (p.read k).expectedOff = p.expectedOff := by
  unfold read
  split_ifs
  · rfl
  · cases p.queue <;> rfl

theorem bytes_push (p : Install) (data : List UInt8) :
    (p.push data).bytes = p.bytes ++ data := by
  simp [bytes, push]

end Install

/-- The receiver: what decides about chunks, and the snapshots written to the end. -/
structure Receiver (ι : Type) where
  currentTerm : Nat
  follower : Bool
  leaderID : Option ι
  lastApplied : Nat
  pendingSnap : Option Install
  installingSnap : Nat
  closing : List Install
  saved : List (SnapshotMeta × List UInt8)
  deriving DecidableEq, Repr

def installChCap : Nat := 8

namespace Receiver

variable [DecidableEq ι]

def becomeFollower (r : Receiver ι) (term : Nat) (leaderID : Option ι) : Receiver ι :=
  { r with
    currentTerm := max r.currentTerm term
    follower := true
    leaderID := leaderID
    pendingSnap := if r.follower = false ∨ r.leaderID ≠ leaderID then none else r.pendingSnap }

/-- Forgets an installation that the chunk does not continue. -/
def dropStale (r : Receiver ι) (req : Chunk ι) : Receiver ι :=
  match r.pendingSnap with
  | some p =>
    if p.position.lastIncludedIndex ≠ req.position.lastIncludedIndex ∨ req.offset = 0 then
      { r with pendingSnap := none }
    else r
  | none => r

/-- Takes a chunk that starts where the last one ended; a full channel ends the installation. -/
def takeChunk (r : Receiver ι) (req : Chunk ι) (p : Install) : Receiver ι :=
  if req.offset ≠ p.expectedOff then { r with pendingSnap := some p }
  else if installChCap ≤ p.queue.length then { r with pendingSnap := none }
  else if req.done then
    { r with
      pendingSnap := none
      closing := r.closing ++ [p.push req.data]
      installingSnap := p.position.lastIncludedIndex }
  else { r with pendingSnap := some (p.push req.data) }

/-- A chunk of the leader: it continues an installation, or starts one. -/
def receive (r : Receiver ι) (req : Chunk ι) : Receiver ι :=
  if req.position.lastIncludedIndex ≤ r.lastApplied then r
  else
    let r := r.dropStale req
    match r.pendingSnap with
    | some p => r.takeChunk req p
    | none =>
      if req.offset ≠ 0 then r
      else if r.installingSnap = req.position.lastIncludedIndex then r
      else r.takeChunk req (.new req.position)

def handleInstallSnapshot (r : Receiver ι) (req : Chunk ι) : Receiver ι :=
  if req.term < r.currentTerm then r
  else
    let r := if r.currentTerm < req.term then r.becomeFollower req.term (some req.leaderID) else r
    { r with leaderID := some req.leaderID }.receive req

end Receiver

/-- What happens to a receiver: chunks, changes of role and term, reads, and results. -/
inductive Event (ι : Type)
  | chunk (req : Chunk ι)
  | follow (term : Nat) (leaderID : Option ι)
  | stand (term : Nat)
  | apply (index : Nat)
  | read (k : Nat)
  | readClosing (i k : Nat)
  | finish (i : Nat)
  | result (index : Nat) (ok : Bool)
  | restart (lastApplied : Nat)
  deriving DecidableEq, Repr

namespace Receiver

variable [DecidableEq ι]

def finish (r : Receiver ι) (i : Nat) : Receiver ι :=
  match r.closing[i]? with
  | some p =>
    if p.buf = [] ∧ p.queue = [] then
      { r with
        closing := r.closing.eraseIdx i
        saved := r.saved ++ [(p.position, p.written)] }
    else r
  | none => r

def result (r : Receiver ι) (index : Nat) (ok : Bool) : Receiver ι :=
  { r with
    installingSnap := if r.installingSnap = index then 0 else r.installingSnap
    lastApplied := if ok then max r.lastApplied index else r.lastApplied
    pendingSnap :=
      if !ok && r.pendingSnap.any (·.position.lastIncludedIndex = index) then none
      else r.pendingSnap }

/-- **One event.** -/
def step (r : Receiver ι) : Event ι → Receiver ι
  | .chunk req => r.handleInstallSnapshot req
  | .follow term leaderID => r.becomeFollower term leaderID
  | .stand term =>
    { r with
      currentTerm := max r.currentTerm term
      follower := false
      leaderID := none }
  | .apply index => { r with lastApplied := max r.lastApplied index }
  | .read k => { r with pendingSnap := r.pendingSnap.map (·.read k) }
  | .readClosing i k => { r with closing := r.closing.modify i (·.read k) }
  | .finish i => r.finish i
  | .result index ok => r.result index ok
  | .restart lastApplied =>
    { r with
      follower := true
      leaderID := none
      lastApplied := lastApplied
      pendingSnap := none
      installingSnap := 0
      closing := [] }

def run (r : Receiver ι) (es : List (Event ι)) : Receiver ι := es.foldl step r

def start (term lastApplied : Nat) : Receiver ι :=
  ⟨term, true, none, lastApplied, none, 0, [], []⟩

end Receiver

/-! ## What is written -/

/-- Every chunk that comes is one of some transfers, in any order and number. -/
def Delivers (ts : Set (Outgoing ι)) (e : Event ι) : Prop :=
  ∀ req, e = .chunk req → ∃ t ∈ ts, t.Sent req

def SameBytes (ts : Set (Outgoing ι)) : Prop :=
  ∀ t ∈ ts, ∀ t' ∈ ts, t.position.lastIncludedIndex = t'.position.lastIncludedIndex →
    t.content = t'.content

/-- An installation holds the beginning of a snapshot. -/
def Install.Begins (ts : Set (Outgoing ι)) (p : Install) : Prop :=
  ∃ t ∈ ts, p.position = t.position ∧ p.expectedOff ≤ t.content.length ∧
    p.bytes = t.content.take p.expectedOff

variable {p : Install}

theorem Install.Begins.push (hsame : SameBytes ts) (h : p.Begins ts) (ht : t ∈ ts) {req : Chunk ι}
    (hsent : t.Sent req) (hindex : p.position.lastIncludedIndex = req.position.lastIncludedIndex)
    (hoff : req.offset = p.expectedOff) :
    (p.push req.data).Begins ts ∧
      (req.done = true → ∃ t ∈ ts, p.position = t.position ∧ (p.push req.data).bytes = t.content) := by
  obtain ⟨t₀, ht₀, hposition, hle, hbytes⟩ := h
  obtain ⟨offset, -, rfl⟩ := hsent
  obtain rfl : offset = p.expectedOff := hoff
  -- the piece may come from another transfer of the same position
  have hcontent : t.content = t₀.content := by
    refine hsame t ht t₀ ht₀ ?_
    rw [← hposition, hindex]
    rfl
  have hdata : (t.piece p.expectedOff (t.content.drop p.expectedOff)).data =
      (t₀.content.drop p.expectedOff).take t.chunkSize := by rw [← hcontent]; rfl
  have hpushed : (p.push (t.piece p.expectedOff (t.content.drop p.expectedOff)).data).bytes =
      t₀.content.take (p.expectedOff + t.chunkSize) := by
    rw [bytes_push, hbytes, hdata, List.take_add]
  refine ⟨⟨t₀, ht₀, hposition, ?_, ?_⟩, fun hdone => ⟨t₀, ht₀, hposition, ?_⟩⟩
  · rw [Install.push, hdata, List.length_take, List.length_drop]
    dsimp only
    omega
  · rw [hpushed, Install.push, hdata, List.length_take, List.length_drop]
    dsimp only
    rcases Nat.le_total t.chunkSize (t₀.content.length - p.expectedOff) with hfits | hover
    · rw [Nat.min_eq_left hfits]
    · rw [Nat.min_eq_right hover, List.take_of_length_le (by omega),
        List.take_of_length_le (by omega)]
  · -- a short piece is the last: nothing of the file is left
    have hlast : (t.content.drop p.expectedOff).length < t.chunkSize := of_decide_eq_true hdone
    rw [hcontent, List.length_drop] at hlast
    rw [hpushed, List.take_of_length_le (by omega)]

theorem Install.begins_new (ht : t ∈ ts) {req : Chunk ι} (hsent : t.Sent req) :
    (Install.new req.position).Begins ts := by
  obtain ⟨offset, -, rfl⟩ := hsent
  exact ⟨t, ht, rfl, Nat.zero_le _, rfl⟩

theorem Install.Begins.read (h : p.Begins ts) (k : Nat) : (p.read k).Begins ts := by
  obtain ⟨t, ht, hposition, hle, hbytes⟩ := h
  refine ⟨t, ht, ?_, ?_, ?_⟩
  · rw [position_read, hposition]
  · rw [expectedOff_read]
    exact hle
  · rw [bytes_read, expectedOff_read, hbytes]

namespace Receiver

/-- The receiver holds the beginning of a snapshot, and wrote only whole ones. -/
structure Holds (ts : Set (Outgoing ι)) (r : Receiver ι) : Prop where
  pending : ∀ p, r.pendingSnap = some p → p.Begins ts
  closing : ∀ p ∈ r.closing, ∃ t ∈ ts, p.position = t.position ∧ p.bytes = t.content
  saved : ∀ x ∈ r.saved, ∃ t ∈ ts, x.1 = t.position ∧ x.2 = t.content

theorem holds_start (ts : Set (Outgoing ι)) (term lastApplied : Nat) :
    (start term lastApplied).Holds ts :=
  ⟨(fun _ h => nomatch h), (fun _ h => nomatch h), (fun _ h => nomatch h)⟩

variable {ts : Set (Outgoing ι)} {r : Receiver ι} {req : Chunk ι} {t : Outgoing ι}

theorem Holds.of_eq {r' : Receiver ι} (h : r.Holds ts)
    (hpending : r'.pendingSnap = none ∨ r'.pendingSnap = r.pendingSnap)
    (hclosing : r'.closing = r.closing) (hsaved : r'.saved = r.saved) : r'.Holds ts where
  pending := by
    intro p hp
    rcases hpending with hnone | hsame
    · rw [hnone] at hp
      cases hp
    · exact h.pending p (hsame ▸ hp)
  closing := by rw [hclosing]; exact h.closing
  saved := by rw [hsaved]; exact h.saved

theorem Holds.takeChunk (hsame : SameBytes ts) (h : r.Holds ts) (ht : t ∈ ts) (hsent : t.Sent req)
    (hp : p.Begins ts) (hindex : p.position.lastIncludedIndex = req.position.lastIncludedIndex) :
    (r.takeChunk req p).Holds ts := by
  have hput : ∀ {q : Install}, q.Begins ts → Holds ts { r with pendingSnap := some q } :=
    fun hq => ⟨fun _ heq => Option.some.inj heq ▸ hq, h.closing, h.saved⟩
  unfold Receiver.takeChunk
  by_cases hoff : req.offset = p.expectedOff
  · obtain ⟨hbegins, hwhole⟩ := hp.push hsame ht hsent hindex hoff
    rw [if_neg (not_not.mpr hoff)]
    split_ifs with hfull hdone
    · exact h.of_eq (.inl rfl) rfl rfl
    · exact ⟨(fun _ heq => nomatch heq), List.forall_mem_append.mpr
        ⟨h.closing, List.forall_mem_singleton.mpr (hwhole hdone)⟩, h.saved⟩
    · exact hput hbegins
  · rw [if_pos hoff]
    exact hput hp

theorem dropStale_pending (h : (r.dropStale req).pendingSnap = some p) : r.pendingSnap = some p ∧
      p.position.lastIncludedIndex = req.position.lastIncludedIndex := by
  unfold dropStale at h
  cases hpending : r.pendingSnap with
  | none => simp [hpending] at h
  | some q =>
    simp only [hpending] at h
    split_ifs at h with hstale
    · rw [hpending] at h
      cases h
      exact ⟨rfl, by_contra fun hne => hstale (.inl hne)⟩

theorem Holds.dropStale (h : r.Holds ts) (req : Chunk ι) : (r.dropStale req).Holds ts := by
  unfold Receiver.dropStale
  cases hpending : r.pendingSnap with
  | none => exact h
  | some q =>
    dsimp only
    split_ifs
    · exact h.of_eq (.inl rfl) rfl rfl
    · exact h

theorem Holds.receive (hsame : SameBytes ts) (h : r.Holds ts) (ht : t ∈ ts) (hsent : t.Sent req) :
    (r.receive req).Holds ts := by
  have hdropped := h.dropStale req
  unfold Receiver.receive
  by_cases happlied : req.position.lastIncludedIndex ≤ r.lastApplied
  · rw [if_pos happlied]
    exact h
  · rw [if_neg happlied]
    dsimp only
    cases hpending : (r.dropStale req).pendingSnap with
    | some p =>
      exact hdropped.takeChunk hsame ht hsent (hdropped.pending p hpending)
        (dropStale_pending hpending).2
    | none =>
      split_ifs
      · exact hdropped
      · exact hdropped
      · exact hdropped.takeChunk hsame ht hsent (Install.begins_new ht hsent) rfl

theorem Holds.finish (h : r.Holds ts) (i : Nat) : (r.finish i).Holds ts := by
  unfold Receiver.finish
  cases hi : r.closing[i]? with
  | none => exact h
  | some p =>
    dsimp only
    split_ifs with hend
    · have hp : p ∈ r.closing := List.mem_of_getElem? hi
      refine ⟨h.pending, fun q hq => h.closing q (List.mem_of_mem_eraseIdx hq),
        List.forall_mem_append.mpr ⟨h.saved, List.forall_mem_singleton.mpr ?_⟩⟩
      obtain ⟨t, ht, hposition, hbytes⟩ := h.closing p hp
      refine ⟨t, ht, hposition, ?_⟩
      rw [← hbytes, Install.bytes, hend.1, hend.2]
      simp
    · exact h

theorem Holds.result (h : r.Holds ts) (index : Nat) (ok : Bool) : (r.result index ok).Holds ts := by
  refine h.of_eq ?_ rfl rfl
  unfold Receiver.result
  dsimp only
  split_ifs
  · exact .inl rfl
  · exact .inr rfl

theorem Holds.readClosing (h : r.Holds ts) (i k : Nat) :
    Holds ts { r with closing := r.closing.modify i (·.read k) } := by
  refine ⟨h.pending, fun p hp => ?_, h.saved⟩
  obtain ⟨j, hj, rfl⟩ := List.mem_iff_getElem.mp hp
  have hj' : j < r.closing.length := by rwa [List.length_modify] at hj
  obtain ⟨t, ht, hposition, hbytes⟩ := h.closing _ (List.getElem_mem hj')
  refine ⟨t, ht, ?_⟩
  rw [List.getElem_modify]
  split_ifs
  · rw [Install.position_read, Install.bytes_read]
    exact ⟨hposition, hbytes⟩
  · exact ⟨hposition, hbytes⟩

variable [DecidableEq ι]

theorem Holds.becomeFollower (h : r.Holds ts) (term : Nat) (leaderID : Option ι) :
    (r.becomeFollower term leaderID).Holds ts := by
  refine h.of_eq ?_ rfl rfl
  unfold Receiver.becomeFollower
  split_ifs
  · exact .inl rfl
  · exact .inr rfl

theorem Holds.handleInstallSnapshot (hsame : SameBytes ts) (h : r.Holds ts) (ht : t ∈ ts)
    (hsent : t.Sent req) : (r.handleInstallSnapshot req).Holds ts := by
  have hnamed : ∀ {r' : Receiver ι}, r'.Holds ts →
      ({ r' with leaderID := some req.leaderID }.receive req).Holds ts := by
    intro r' h'
    have hleader : Holds ts { r' with leaderID := some req.leaderID } :=
      h'.of_eq (.inr rfl) rfl rfl
    exact hleader.receive hsame ht hsent
  unfold Receiver.handleInstallSnapshot
  split_ifs
  · exact h
  · exact hnamed (h.becomeFollower _ _)
  · exact hnamed h

/-- **One event** leaves beginnings beginnings and whole snapshots whole. -/
theorem Holds.step (hsame : SameBytes ts) (h : r.Holds ts) {e : Event ι} (he : Delivers ts e) :
    (r.step e).Holds ts := by
  cases e with
  | chunk req =>
    obtain ⟨t, ht, hsent⟩ := he req rfl
    exact h.handleInstallSnapshot hsame ht hsent
  | follow term leaderID => exact h.becomeFollower term leaderID
  | stand term | apply index => exact h.of_eq (.inr rfl) rfl rfl
  | read k =>
    refine ⟨fun p hp => ?_, h.closing, h.saved⟩
    obtain ⟨q, hq, rfl⟩ := Option.map_eq_some_iff.mp hp
    exact (h.pending q hq).read k
  | readClosing i k => exact h.readClosing i k
  | finish i => exact h.finish i
  | result index ok => exact h.result index ok
  | restart lastApplied => exact ⟨(fun _ heq => nomatch heq), (fun _ hp => nomatch hp), h.saved⟩

theorem Holds.run (hsame : SameBytes ts) (h : r.Holds ts) {es : List (Event ι)}
    (hes : ∀ e ∈ es, Delivers ts e) : (r.run es).Holds ts := by
  induction es generalizing r with
  | nil => exact h
  | cons e es ih =>
    exact ih (h.step hsame (hes e (List.mem_cons_self ..)))
      fun e' he' => hes e' (List.mem_cons_of_mem _ he')

end Receiver

def Outgoing.Delivered (t : Outgoing ι) : Prop :=
  ∃ rounds, (t.sends (fun _ => .ok) rounds).2 = .completed ∧
    Carries (t.sends (fun _ => .ok) rounds).1 t.content

theorem Outgoing.delivered_iff (t : Outgoing ι) : t.Delivered ↔ t.chunkSize ≠ 0 := by
  constructor
  · rintro ⟨rounds, hend, -⟩ hzero
    rw [Outgoing.sends, sendLoop_zero hzero] at hend
    cases hend
  · intro hne
    exact ⟨t.content.length + 1, sendLoop_ok (by omega) (by omega) 0 0⟩

variable [DecidableEq ι] {n : Node ι} {r : Receiver ι} {data : List UInt8}
  {req : InstallSnapshotRequest ι}

/-- **Snapshots are transferred faithfully** where the chunk size is not 0 and the transfers of an
index carry the same bytes: the sender sends the snapshot, and whatever chunks reach a receiver, it
writes the content of a transfer of that snapshot. -/
theorem transfer_faithful :
    (∀ t : Outgoing ι, t.Delivered ↔ t.chunkSize ≠ 0) ∧
    ∀ (ts : Set (Outgoing ι)), SameBytes ts →
      ∀ (term lastApplied : Nat) (es : List (Event ι)),
        (∀ req, .chunk req ∈ es → ∃ t ∈ ts, ∃ replies rounds, req ∈ (t.sends replies rounds).1) →
        ∀ x ∈ ((Receiver.start term lastApplied).run es).saved,
          ∃ t ∈ ts, x.1 = t.position ∧ x.2 = t.content := by
  refine ⟨Outgoing.delivered_iff, fun ts hsame term lastApplied es hes => ?_⟩
  have hdelivers : ∀ e ∈ es, Delivers ts e := by
    rintro e he req rfl
    obtain ⟨t, ht, replies, rounds, hmem⟩ := hes req he
    exact ⟨t, ht, sent_of_mem_sendLoop (Nat.zero_le _) hmem⟩
  exact ((Receiver.holds_start ts term lastApplied).run hsame hdelivers).saved

def threeBytes : Outgoing Nat := ⟨1, 0, ⟨10, 1⟩, [1, 2, 3], 2⟩

def threeBytesTwice : List (Event Nat) :=
  [.chunk ⟨1, 0, ⟨10, 1⟩, 0, [1, 2], false⟩, .read 1, .chunk ⟨1, 0, ⟨10, 1⟩, 0, [1, 2], false⟩,
    .chunk ⟨1, 0, ⟨10, 1⟩, 2, [3], true⟩, .readClosing 0 1, .readClosing 0 8, .readClosing 0 8, .finish 0]

theorem threeBytes_faithful :
    threeBytes.Delivered ∧
      ((Receiver.start 1 0).run threeBytesTwice).saved = [(⟨10, 1⟩, [1, 2, 3])] ∧
      ∃ t ∈ ({threeBytes} : Set (Outgoing Nat)), (⟨10, 1⟩ : SnapshotMeta) = t.position ∧
        [1, 2, 3] = t.content := by
  refine ⟨(transfer_faithful.1 threeBytes).mpr (by decide), by decide, ?_⟩
  have hsame : SameBytes {threeBytes} := by
    rintro t rfl t' rfl -
    rfl
  refine transfer_faithful.2 {threeBytes} hsame 1 0 threeBytesTwice ?_ (⟨10, 1⟩, [1, 2, 3])
    (by decide)
  intro req hreq
  refine ⟨threeBytes, rfl, fun _ => .ok, 2, ?_⟩
  have hall : ∀ req, .chunk req ∈ threeBytesTwice →
      req = ⟨1, 0, ⟨10, 1⟩, 0, [1, 2], false⟩ ∨ req = ⟨1, 0, ⟨10, 1⟩, 2, [3], true⟩ := by
    simp [threeBytesTwice]
  rcases hall req hreq with rfl | rfl <;> decide

def witnessBytes : Outgoing Nat := ⟨1, 0, ⟨10, 1⟩, [7, 8, 9], 2⟩

/-- A sender with chunk size 0 goes on for ever.  And a last chunk that was held up completes
a later transfer with other bytes. -/
theorem transfer_not_faithful :
    (∀ rounds, ((⟨1, 0, ⟨10, 1⟩, [1, 2, 3], 0⟩ : Outgoing Nat).sends (fun _ => .ok) rounds).2 =
      .running) ∧
    (⟨1, 0, ⟨10, 1⟩, 0, [7, 8], false⟩ ∈ (witnessBytes.sends (fun _ => .ok) 1).1 ∧
      ⟨1, 0, ⟨10, 1⟩, 2, [3], true⟩ ∈ (threeBytes.sends (fun _ => .ok) 2).1 ∧
      ((Receiver.start 1 0).run [.chunk ⟨1, 0, ⟨10, 1⟩, 0, [7, 8], false⟩,
        .chunk ⟨1, 0, ⟨10, 1⟩, 2, [3], true⟩, .readClosing 0 8, .readClosing 0 8, .finish 0]).saved =
        [((⟨10, 1⟩ : SnapshotMeta), [7, 8, 3])]) := by
  refine ⟨fun rounds => sendLoop_zero rfl rounds 0 0 _, ?_⟩
  decide

/-! ## The node decides alike

The model of the node has no bytes: a transfer is known there by its first chunk.  Its handler and
the receiver here take, refuse and complete the same chunks. -/

/-- What the decisions about chunks depend on. -/
structure View (ι : Type) where
  currentTerm : Nat
  follower : Bool
  leaderID : Option ι
  lastApplied : Nat
  installingSnap : Nat
  pending : Option (SnapshotMeta × Nat)

def Receiver.view (r : Receiver ι) : View ι :=
  ⟨r.currentTerm, r.follower, r.leaderID, r.lastApplied, r.installingSnap,
    r.pendingSnap.map fun p => (p.position, p.expectedOff)⟩

def viewOf (n : Node ι) : View ι :=
  ⟨n.currentTerm, n.state = .follower, n.leaderID, n.lastApplied, n.snapshots.installingSnap,
    n.snapshots.pendingSnap.map fun p => (p.position, p.expectedOff)⟩

@[simps] def chunkOf (req : InstallSnapshotRequest ι) (data : List UInt8) : Chunk ι :=
  ⟨req.term, req.leaderID, req.position, req.offset, data, req.last⟩

omit [DecidableEq ι] in
@[simp] theorem viewOf_replySnapshotWhenDurable (n : Node ι) (dst : Asker ι)
    (req : InstallSnapshotRequest ι) (resp : InstallSnapshotResponse) :
    viewOf (n.replySnapshotWhenDurable dst req resp) = viewOf n := by
  unfold Node.replySnapshotWhenDurable Node.afterWrite
  split_ifs <;> rfl

theorem viewOf_becomeFollower (h : viewOf n = r.view) (term : Nat) (leaderID : Option ι) :
    viewOf (n.becomeFollower term leaderID) = (r.becomeFollower term leaderID).view := by
  simp only [viewOf, Receiver.view, View.mk.injEq] at h
  obtain ⟨hterm, hfollower, hleader, happlied, hinstalling, hpending⟩ := h
  have hchanged : (n.state ≠ .follower ∨ n.leaderID ≠ leaderID) ↔
      (r.follower = false ∨ r.leaderID ≠ leaderID) := by
    rw [← hfollower, hleader, decide_eq_false_iff_not]
  have hsave : (if n.currentTerm < term then n.saveTerm term none else n) =
      { n with
        log := (if n.currentTerm < term then n.saveTerm term none else n).log
        unsafeTermSeq := (if n.currentTerm < term then n.saveTerm term none else n).unsafeTermSeq
        currentTerm := max n.currentTerm term
        votedFor := (if n.currentTerm < term then n.saveTerm term none else n).votedFor } := by
    by_cases hlt : n.currentTerm < term
    · simp only [if_pos hlt, Nat.max_eq_right hlt.le]
      rfl
    · simp only [if_neg hlt, Nat.max_eq_left (Nat.le_of_not_lt hlt)]
  rw [Node.becomeFollower, hsave]
  simp only [Node.applyFollowerTransition, Node.drainPendingReads, Node.resetElectionTimeout, viewOf,
    Receiver.becomeFollower, Receiver.view, View.mk.injEq, hterm, happlied, decide_true, true_and]
  by_cases hc : r.follower = false ∨ r.leaderID ≠ leaderID
  · rw [if_pos (hchanged.mpr hc), if_pos hc]
    exact ⟨hinstalling, rfl⟩
  · rw [if_neg (mt hchanged.mp hc), if_neg hc]
    exact ⟨hinstalling, hpending⟩

omit [DecidableEq ι] in
theorem viewOf_takeChunk (src : Asker ι) (hlen : data.length = req.len) {p : PartialSnapshot ι}
    {q : Install} (hposition : p.position = q.position) (hoff : p.expectedOff = q.expectedOff)
    (h : viewOf n = { r with pendingSnap := some q }.view) (hroom : q.queue.length < installChCap) :
    viewOf (n.takeChunk src req p) = (r.takeChunk (chunkOf req data) q).view := by
  simp only [viewOf, Receiver.view, View.mk.injEq] at h
  obtain ⟨hterm, hfollower, hleader, happlied, hinstalling, hpending⟩ := h
  unfold Node.takeChunk Receiver.takeChunk
  simp only [chunkOf_offset, chunkOf_done, chunkOf_data, hoff, if_neg (Nat.not_le_of_lt hroom)]
  by_cases hne : req.offset = q.expectedOff
  · rw [if_neg (not_not.mpr hne), if_neg (not_not.mpr hne)]
    split_ifs with hlast
    · simp only [Node.holdSnapshotAck, viewOf, Receiver.view, hposition, hterm, hfollower, hleader,
        happlied, Option.map_none]
    · rw [viewOf_replySnapshotWhenDurable]
      simp only [viewOf, Receiver.view, Install.push, hposition, hterm, hfollower, hleader, happlied,
        hinstalling, hlen, Option.map_some]
  · rw [if_pos hne, if_pos hne]
    simp only [viewOf, Receiver.view, hterm, hfollower, hleader, happlied, hinstalling, hpending]

def receiveChunk (n : Node ι) (src : Asker ι) (req : InstallSnapshotRequest ι) : Node ι :=
  if req.position.lastIncludedIndex ≤ n.lastApplied then
    n.replySnapshotWhenDurable src req ⟨n.currentTerm⟩
  else
    let n := n.dropStaleTransfer req
    match n.snapshots.pendingSnap with
    | some p => n.takeChunk src req p
    | none =>
      if req.offset ≠ 0 then n
      else if n.snapshots.installingSnap = req.position.lastIncludedIndex then
        n.holdSnapshotAck src req
      else
        let n := { n with snapshots := { n.snapshots with
          pendingSnap := some ⟨req.snap, req.position, 0⟩, snapInstallAck := none } }
        n.takeChunk src req ⟨req.snap, req.position, 0⟩

theorem handleInstallSnapshot_eq (n : Node ι) (src : Asker ι) (req : InstallSnapshotRequest ι) :
    n.handleInstallSnapshot src req =
      if req.term < n.currentTerm then n.replySnapshotWhenDurable src req ⟨n.currentTerm⟩
      else
        let n := if n.currentTerm < req.term then n.becomeFollower req.term (some req.leaderID) else n
        receiveChunk { n with leaderID := some req.leaderID }.resetElectionTimeout src req := rfl

omit [DecidableEq ι] in
theorem viewOf_dropStaleTransfer (h : viewOf n = r.view) (req : InstallSnapshotRequest ι)
    (data : List UInt8) :
    viewOf (n.dropStaleTransfer req) = (r.dropStale (chunkOf req data)).view := by
  have hpending := congrArg View.pending h
  simp only [viewOf, Receiver.view] at hpending
  unfold Node.dropStaleTransfer Receiver.dropStale
  cases hn : n.snapshots.pendingSnap with
  | none =>
    cases hr : r.pendingSnap with
    | none => exact h
    | some q => simp [hn, hr] at hpending
  | some p =>
    cases hr : r.pendingSnap with
    | none => simp [hn, hr] at hpending
    | some q =>
      simp only [hn, hr, Option.map_some, Option.some.injEq, Prod.mk.injEq] at hpending
      simp only [chunkOf_position, chunkOf_offset, hpending.1]
      split_ifs
      · simp only [viewOf, Receiver.view, View.mk.injEq] at h ⊢
        obtain ⟨hterm, hfollower, hleader, happlied, hinstalling, -⟩ := h
        exact ⟨hterm, hfollower, hleader, happlied, hinstalling, rfl⟩
      · exact h

omit [DecidableEq ι] in
theorem viewOf_receiveChunk (h : viewOf n = r.view) (src : Asker ι) (hlen : data.length = req.len)
    (hroom : ∀ q, r.pendingSnap = some q → q.queue.length < installChCap) :
    viewOf (receiveChunk n src req) = (r.receive (chunkOf req data)).view := by
  have happlied : n.lastApplied = r.lastApplied := congrArg View.lastApplied h
  have hdrop := viewOf_dropStaleTransfer h req data
  unfold receiveChunk Receiver.receive
  by_cases hle : (chunkOf req data).position.lastIncludedIndex ≤ r.lastApplied
  · have hle' : req.position.lastIncludedIndex ≤ n.lastApplied := happlied ▸ hle
    rw [if_pos hle', if_pos hle, viewOf_replySnapshotWhenDurable, h]
  · have hle' : ¬ req.position.lastIncludedIndex ≤ n.lastApplied := happlied ▸ hle
    rw [if_neg hle', if_neg hle]
    dsimp only
    have hroom' : ∀ q, (r.dropStale (chunkOf req data)).pendingSnap = some q →
        q.queue.length < installChCap := fun q hq => hroom q (Receiver.dropStale_pending hq).1
    generalize n.dropStaleTransfer req = m at hdrop ⊢
    generalize r.dropStale (chunkOf req data) = r' at hdrop hroom' ⊢
    have hpending := congrArg View.pending hdrop
    have hinstalling : m.snapshots.installingSnap = r'.installingSnap :=
      congrArg View.installingSnap hdrop
    simp only [viewOf, Receiver.view] at hpending
    cases hm : m.snapshots.pendingSnap with
    | some p =>
      cases hr : r'.pendingSnap with
      | none => simp [hm, hr] at hpending
      | some q =>
        simp only [hm, hr, Option.map_some, Option.some.injEq, Prod.mk.injEq] at hpending
        refine viewOf_takeChunk src hlen hpending.1 hpending.2 ?_ (hroom' q hr)
        rw [hdrop, Receiver.view, Receiver.view, hr]
    | none =>
      cases hr : r'.pendingSnap with
      | some q => simp [hm, hr] at hpending
      | none =>
        simp only [chunkOf_offset, chunkOf_position, hinstalling]
        split_ifs
        · exact hdrop
        · exact hdrop
        · refine viewOf_takeChunk src hlen rfl rfl ?_ (Nat.succ_pos _)
          simp only [viewOf, Receiver.view, View.mk.injEq] at hdrop ⊢
          obtain ⟨hterm, hfollower, hleader, happlied, -, -⟩ := hdrop
          exact ⟨hterm, hfollower, hleader, happlied, trivial, rfl⟩

/-- **The node's handler** and the receiver come to the same view, if the channel has room. -/
theorem viewOf_handleInstallSnapshot (h : viewOf n = r.view) (src : Asker ι)
    (hlen : data.length = req.len)
    (hroom : ∀ q, r.pendingSnap = some q → q.queue.length < installChCap) :
    viewOf (n.handleInstallSnapshot src req) =
      (r.handleInstallSnapshot (chunkOf req data)).view := by
  have hterm : n.currentTerm = r.currentTerm := congrArg View.currentTerm h
  rw [handleInstallSnapshot_eq, Receiver.handleInstallSnapshot]
  by_cases hold : (chunkOf req data).term < r.currentTerm
  · have hold' : req.term < n.currentTerm := hterm ▸ hold
    rw [if_pos hold', if_pos hold, viewOf_replySnapshotWhenDurable, h]
  · have hold' : ¬ req.term < n.currentTerm := hterm ▸ hold
    rw [if_neg hold', if_neg hold]
    -- naming the leader does not depend on which branch set the term
    have hnamed : ∀ {m : Node ι} {r' : Receiver ι}, viewOf m = r'.view →
        viewOf { m with leaderID := some req.leaderID }.resetElectionTimeout =
          { r' with leaderID := some req.leaderID }.view := by
      intro m r' hm
      simp only [Node.resetElectionTimeout, viewOf, Receiver.view, View.mk.injEq] at hm ⊢
      obtain ⟨hterm, hfollower, -, happlied, hinstalling, hpending⟩ := hm
      exact ⟨hterm, hfollower, trivial, happlied, hinstalling, hpending⟩
    by_cases hnew : r.currentTerm < (chunkOf req data).term
    · have hnew' : n.currentTerm < req.term := hterm ▸ hnew
      rw [if_pos hnew', if_pos hnew]
      refine viewOf_receiveChunk (hnamed (viewOf_becomeFollower h _ _)) src hlen fun q hq => ?_
      simp only [Receiver.becomeFollower] at hq
      split_ifs at hq
      exact hroom q hq
    · have hnew' : ¬ n.currentTerm < req.term := hterm ▸ hnew
      rw [if_neg hnew', if_neg hnew]
      exact viewOf_receiveChunk (hnamed h) src hlen hroom

end Transfer

end Raft
