import Raft.Node.Loop
import Raft.Snapshot.File

/-!
# Writing a local snapshot

The goroutine that writes a snapshot passes it through a pipe to `SaveSnapshot`, which fills
a temporary file, adds the trailer when the stream ends, and renames the file over the
snapshot there is.

The writer closes its end of the pipe in the same way whether or not the state machine has
failed, so `SaveSnapshot` saves what came before the error.
-/

namespace Raft

open SnapshotFile

/-- What stands in front of the bytes of the state machine, encoded. -/
structure SnapshotFrame where
  table : List UInt8
  membership : List UInt8
  limits : List UInt8
  deriving DecidableEq, Repr

def snapFrameMagicV3 : Nat := 0xCAFEDEADBEEFD00F

def SnapshotFrame.bytes (frame : SnapshotFrame) : List UInt8 :=
  Bytes.little 8 snapFrameMagicV3 ++ Bytes.little 4 frame.table.length ++
    Bytes.little 4 frame.membership.length ++ Bytes.little 4 frame.limits.length ++
    frame.table ++ frame.membership ++ frame.limits

structure Written where
  bytes : List UInt8
  err : Bool
  deriving DecidableEq, Repr

/-- The next thing `SaveSnapshot` does, or what it has returned. -/
inductive SaveStage
  | create
  | header
  | copy
  | trailer
  | sync
  | close
  | rename
  | syncDir
  | returned (err : Bool)
  deriving DecidableEq, Repr

/-- An attempt under way: the two files, what is yet to be written, and what has been copied. -/
structure Attempt where
  position : SnapshotMeta
  snap : Option (List UInt8)
  tmp : Option (List UInt8)
  unsent : List UInt8
  closed : Bool
  copied : List UInt8
  stage : SaveStage
  deriving DecidableEq, Repr

/-- `SaveSnapshot` takes its next step, reading at most `k + 1` bytes, or fails to; or the
pipe is closed. -/
inductive SaveEvent
  | save (ok : Bool) (k : Nat)
  | finish
  deriving DecidableEq, Repr

namespace Attempt

def start (position : SnapshotMeta) (snap tmp : Option (List UInt8)) (frame : SnapshotFrame)
    (w : Written) : Attempt :=
  ⟨position, snap, tmp, frame.bytes ++ w.bytes, false, [], .create⟩

def fail (a : Attempt) : Attempt := { a with tmp := none, stage := .returned true }

def append (a : Attempt) (bytes : List UInt8) : Attempt := { a with tmp := a.tmp.map (· ++ bytes) }

def read (a : Attempt) (k : Nat) : Attempt :=
  if a.unsent ≠ [] then
    let chunk := a.unsent.take (k + 1)
    { a.append chunk with unsent := a.unsent.drop (k + 1), copied := a.copied ++ chunk }
  else if a.closed then { a with stage := .trailer }
  else a

def save (a : Attempt) (ok : Bool) (k : Nat) : Attempt :=
  match a.stage with
  | .create =>
    if ok then { a with tmp := some [], stage := .header } else { a with stage := .returned true }
  | .header => if ok then { a.append (header a.position) with stage := .copy } else a.fail
  | .copy => if ok then a.read k else a.fail
  | .trailer => if ok then { a.append (trailer a.copied) with stage := .sync } else a.fail
  | .sync => if ok then { a with stage := .close } else a.fail
  | .close => if ok then { a with stage := .rename } else a.fail
  | .rename =>
    if ok then { a with snap := a.tmp, tmp := none, stage := .syncDir } else a.fail
  -- the rename is not taken back
  | .syncDir => { a with stage := .returned !ok }
  | .returned _ => a

def step (a : Attempt) : SaveEvent → Attempt
  | .save ok k => a.save ok k
  | .finish => if a.unsent = [] then { a with closed := true } else a

def run (a : Attempt) (events : List SaveEvent) : Attempt := events.foldl step a

def Returned (a : Attempt) : Prop := ∃ err, a.stage = .returned err

def Unnamed (a : Attempt) : Prop := a.stage ≠ .syncDir ∧ ¬ a.Returned

/-- `SaveSnapshot` fails before the temporary file has got its name. -/
def Stopped (a : Attempt) : List SaveEvent → Prop
  | [] => False
  | ev :: events => (a.Unnamed ∧ ∃ k, ev = .save false k) ∨ Stopped (a.step ev) events

/-! ## What the attempt comes to -/

def Due (body : List UInt8) (a : Attempt) : SaveStage → Prop
  | .create => a.copied = []
  | .header => a.copied = [] ∧ a.tmp = some []
  | .copy => a.tmp = some (SnapshotFile.header a.position ++ a.copied)
  | .trailer => a.unsent = [] ∧ a.tmp = some (SnapshotFile.header a.position ++ a.copied)
  | .sync | .close | .rename => a.tmp = some (file a.position body)
  | .syncDir | .returned _ => False

/-- The temporary file has no name yet, and the stream has been copied as far as the stage says. -/
structure Filling (position : SnapshotMeta) (snap : Option (List UInt8)) (body : List UInt8)
    (a : Attempt) : Prop where
  position : a.position = position
  snap : a.snap = snap
  stream : a.copied ++ a.unsent = body
  due : a.Due body a.stage

variable {position : SnapshotMeta} {snap tmp : Option (List UInt8)} {body : List UInt8} {a : Attempt}

theorem Filling.start {frame : SnapshotFrame} {w : Written} :
    Filling position snap (frame.bytes ++ w.bytes) (start position snap tmp frame w) :=
  ⟨rfl, rfl, rfl, rfl⟩

section

variable (h : Filling position snap body a)

include h

theorem Filling.unnamed : a.Unnamed := by
  refine ⟨fun hstage => ?_, fun ⟨err, hstage⟩ => ?_⟩
  · have := h.due
    rwa [hstage] at this
  · have := h.due
    rwa [hstage] at this

theorem Filling.save_false (k : Nat) :
    (a.save false k).stage = .returned true ∧ (a.save false k).snap = snap := by
  obtain ⟨position', snap', tmp', unsent, closed, copied, stage⟩ := a
  have hsnap : snap' = snap := h.snap
  cases stage with
  | syncDir | returned err => exact h.due.elim
  | _ => exact ⟨rfl, hsnap⟩

theorem Filling.read (hstage : a.stage = .copy) (k : Nat) :
    Filling position snap body (a.read k) := by
  obtain ⟨position', snap', tmp', unsent, closed, copied, stage⟩ := a
  obtain rfl : stage = .copy := hstage
  have htmp : tmp' = some (SnapshotFile.header position' ++ copied) := h.due
  unfold Attempt.read
  split_ifs with hunsent hclosed
  · refine ⟨h.position, h.snap, ?_, ?_⟩
    · rw [List.append_assoc, List.take_append_drop]
      exact h.stream
    · change tmp'.map (· ++ unsent.take (k + 1)) =
        some (SnapshotFile.header position' ++ (copied ++ unsent.take (k + 1)))
      rw [htmp, Option.map_some, List.append_assoc]
  · exact ⟨h.position, h.snap, h.stream, not_not.mp hunsent, htmp⟩
  · exact h

theorem Filling.save_true (k : Nat) :
    Filling position snap body (a.save true k) ∨
      (a.save true k).stage = .syncDir ∧ (a.save true k).snap = some (file position body) := by
  obtain ⟨position', snap', tmp', unsent, closed, copied, stage⟩ := a
  have hstream : copied ++ unsent = body := h.stream
  have hpos : position' = position := h.position
  cases stage with
  | create => exact .inl ⟨h.position, h.snap, h.stream, h.due, rfl⟩
  | header =>
    obtain ⟨hcopied, htmp⟩ : copied = [] ∧ tmp' = some [] := h.due
    refine .inl ⟨h.position, h.snap, h.stream, ?_⟩
    change tmp'.map (· ++ SnapshotFile.header position') =
      some (SnapshotFile.header position' ++ copied)
    rw [hcopied, htmp, Option.map_some, List.nil_append, List.append_nil]
  | copy => exact .inl (h.read rfl k)
  | trailer =>
    obtain ⟨hunsent, htmp⟩ : unsent = [] ∧
      tmp' = some (SnapshotFile.header position' ++ copied) := h.due
    rw [hunsent, List.append_nil] at hstream
    refine .inl ⟨h.position, h.snap, h.stream, ?_⟩
    rw [htmp, hstream]
    rfl
  | sync | close => exact .inl ⟨h.position, h.snap, h.stream, h.due⟩
  | rename =>
    have htmp : tmp' = some (file position' body) := h.due
    exact .inr ⟨rfl, hpos ▸ htmp⟩
  | syncDir | returned err => exact h.due.elim

theorem Filling.finish : Filling position snap body (a.step .finish) := by
  rw [step]
  split_ifs
  · refine ⟨h.position, h.snap, h.stream, ?_⟩
    have := h.due
    obtain ⟨position', snap', tmp', unsent, closed, copied, stage⟩ := a
    cases stage <;> exact this
  · exact h

end

theorem named_run (h : ¬ a.Unnamed) (events : List SaveEvent) :
    (a.run events).snap = a.snap ∧ ¬ a.Stopped events := by
  induction events generalizing a with
  | nil => exact ⟨rfl, id⟩
  | cons ev events ih =>
    have hstep : ¬ (a.step ev).Unnamed ∧ (a.step ev).snap = a.snap := by
      obtain ⟨position', snap', tmp', unsent, closed, copied, stage⟩ := a
      have hstage : stage = .syncDir ∨ ∃ err, stage = .returned err := by
        by_contra hne
        exact h ⟨fun heq => hne (.inl heq), fun heq => hne (.inr heq)⟩
      cases ev with
      | save ok k =>
        obtain rfl | ⟨err, rfl⟩ := hstage
        · exact ⟨fun hun => hun.2 ⟨_, rfl⟩, rfl⟩
        · exact ⟨fun hun => hun.2 ⟨_, rfl⟩, rfl⟩
      | finish =>
        rw [step]
        split_ifs
        · exact ⟨h, rfl⟩
        · exact ⟨h, rfl⟩
    obtain ⟨hsnap, hstopped⟩ := ih hstep.1
    refine ⟨hsnap.trans hstep.2, ?_⟩
    rintro (⟨hun, -⟩ | hlater)
    · exact h hun
    · exact hstopped hlater

/-- **When `SaveSnapshot` has returned**, the file is the old one if it was stopped, else the
stream. -/
theorem Filling.snap_of_returned {events : List SaveEvent} (h : Filling position snap body a)
    (hret : (a.run events).Returned) :
    (a.Stopped events → (a.run events).snap = snap) ∧
      (¬ a.Stopped events → (a.run events).snap = some (file position body)) := by
  induction events generalizing a with
  | nil => exact absurd hret h.unnamed.2
  | cons ev events ih =>
    -- a step that is not a failure hands the question on
    have later : Filling position snap body (a.step ev) → (∀ k, ev ≠ .save false k) →
        (a.Stopped (ev :: events) → (a.run (ev :: events)).snap = snap) ∧
          (¬ a.Stopped (ev :: events) → (a.run (ev :: events)).snap = some (file position body)) := by
      intro hstep hok
      obtain ⟨hst, hnot⟩ := ih hstep hret
      refine ⟨?_, fun hn => hnot fun hs => hn (.inr hs)⟩
      rintro (⟨-, k, rfl⟩ | hs)
      · exact absurd rfl (hok k)
      · exact hst hs
    cases ev with
    | finish => exact later h.finish fun k heq => SaveEvent.noConfusion heq
    | save ok k =>
      cases ok with
      | false =>
        obtain ⟨hdone, hsnap⟩ := h.save_false k
        have hnamed : ¬ (a.step (.save false k)).Unnamed := fun hun => hun.2 ⟨true, hdone⟩
        refine ⟨fun _ => (named_run hnamed events).1.trans hsnap, fun hn => ?_⟩
        exact absurd (.inl ⟨h.unnamed, k, rfl⟩) hn
      | true =>
        rcases h.save_true k with hstep | ⟨hstage, hsnap⟩
        · exact later hstep fun k heq => by cases heq
        · have hnamed : ¬ (a.step (.save true k)).Unnamed := fun hun => hun.1 hstage
          obtain ⟨hrun, hstopped⟩ := named_run hnamed events
          refine ⟨?_, fun _ => hrun.trans hsnap⟩
          rintro (⟨-, k', heq⟩ | hs)
          · cases heq
          · exact absurd hs hstopped

theorem run_of_returned {err : Bool} (h : a.stage = .returned err) (events : List SaveEvent) :
    (a.run events).stage = .returned err := by
  induction events generalizing a with
  | nil => exact h
  | cons ev events ih =>
    refine ih ?_
    cases ev with
    | save ok k => rwa [step, save, h]
    | finish =>
      rw [step]
      split_ifs <;> exact h

theorem Filling.returned_of_stopped {events : List SaveEvent} (h : Filling position snap body a)
    (hstopped : a.Stopped events) : (a.run events).stage = .returned true := by
  induction events generalizing a with
  | nil => exact hstopped.elim
  | cons ev events ih =>
    rcases hstopped with ⟨-, k, rfl⟩ | hlater
    · exact run_of_returned (h.save_false k).1 events
    · cases ev with
      | finish => exact ih h.finish hlater
      | save ok k =>
        cases ok with
        | false => exact run_of_returned (h.save_false k).1 events
        | true =>
          rcases h.save_true k with hstep | ⟨hstage, -⟩
          · exact ih hstep hlater
          · exact absurd hlater (named_run (fun hun => hun.1 hstage) events).2

/-- **An attempt in which the state machine fails** leaves the snapshot alone exactly when
`SaveSnapshot` is stopped too, or the snapshot was the one cut short. -/
theorem load_eq_iff {frame : SnapshotFrame} {written : List UInt8} {events : List SaveEvent}
    (hindex : position.lastIncludedIndex < 2 ^ 64) (hterm : position.lastIncludedTerm < 2 ^ 64)
    (hlen : (frame.bytes ++ written).length < 2 ^ 63)
    (hret : ((start position snap tmp frame ⟨written, true⟩).run events).Returned) :
    load ((start position snap tmp frame ⟨written, true⟩).run events).snap = load snap ↔
      (start position snap tmp frame ⟨written, true⟩).Stopped events ∨
        load snap = .ok (position, frame.bytes ++ written) := by
  obtain ⟨hstopped, hsaved⟩ := Filling.start.snap_of_returned hret
  have hload := load_file hindex hterm hlen
  by_cases hs : (start position snap tmp frame ⟨written, true⟩).Stopped events
  · rw [hstopped hs]
    exact iff_of_true rfl (.inl hs)
  · rw [hsaved hs, hload]
    constructor
    · intro heq
      exact .inr heq.symm
    · rintro (hs' | heq)
      · exact absurd hs' hs
      · exact heq.symm

def earlier : List UInt8 := file ⟨1, 1⟩ [7, 8]

/-- No clients, and one member. -/
def smallFrame : SnapshotFrame :=
  ⟨[0, 0, 0, 0], [0, 0, 0, 0, 1, 0, 1, 1, 98, 0, 0, 0, 0, 0, 0, 0, 0], []⟩

/-- The state machine writes one byte of its state and fails, and so does the copy. -/
theorem load_unchanged_of_copy_failed :
    load ((start ⟨5, 2⟩ (some earlier) none smallFrame ⟨[9], true⟩).run
      [.save true 0, .save true 0, .save true 4, .save false 0]).snap = load (some earlier) :=
  (load_eq_iff (by decide) (by decide) (by decide) ⟨true, rfl⟩).mpr
    (.inl (.inr (.inr (.inr (.inl ⟨⟨by decide, fun ⟨_, h⟩ => (by cases h)⟩, 0, rfl⟩)))))

/-- The state machine writes one byte and fails: the old snapshot is gone, the new one lacks
the rest. -/
theorem load_cut_short :
    load ((start ⟨5, 2⟩ (some earlier) none smallFrame ⟨[9], true⟩).run
        ([.save true 0, .save true 0, .save true 99, .finish] ++
          List.replicate 6 (.save true 0))).snap = .ok (⟨5, 2⟩, smallFrame.bytes ++ [9]) ∧
      load (some earlier) = .ok (⟨1, 1⟩, [7, 8]) := by
  decide +kernel

end Attempt

/-! ## The step of the node -/

/-- How the parts of a snapshot are laid out in bytes. -/
structure Encoding (ι : Type) where
  frame : List ClientRecord → Option (MembershipState ι) → Option Nat → SnapshotFrame
  state : List (LogEntry ι) → List UInt8

namespace Encoding

variable {ι : Type} (enc : Encoding ι)

def body (snap : Snapshot ι) : List UInt8 :=
  (enc.frame snap.table snap.membership snap.clientTableCap).bytes ++ enc.state snap.data

def Holds (s : Store ι) (file : Option (List UInt8)) : Prop :=
  load file = match s.snap with
    | none => .error .noSnapshot
    | some snap => .ok (snap.position, enc.body snap)

/-- How the writing ends for the node: with the file in place, as a whole or cut short, or without
it. -/
def Ends (a : Attempt) (events : List SaveEvent) (w : Written) (data : List (LogEntry ι)) :
    SnapshotWrite ι → Prop
  | .saved => ¬ a.Stopped events ∧ w = ⟨enc.state data, false⟩ ∧
      (a.run events).stage = .returned false
  | .cut written => ¬ a.Stopped events ∧ w.bytes = enc.state written ∧
      (w.err = true ∨ (a.run events).stage = .returned true)
  | .refused => a.Stopped events

variable {enc} {n : Node ι} {trigger : SnapshotTrigger ι} {data : List (LogEntry ι)}
  {rest : List (SnapshotTrigger ι × List (LogEntry ι))} {file tmp : Option (List UInt8)}
  {w : Written} {events : List SaveEvent} {outcome : SnapshotWrite ι}

def attempt (enc : Encoding ι) (trigger : SnapshotTrigger ι) (file tmp : Option (List UInt8))
    (w : Written) : Attempt :=
  .start trigger.position file tmp
    (enc.frame trigger.clientTable (some trigger.membership) trigger.clientTableCap) w

theorem Ends.reports {err : Bool}
    (hret : ((enc.attempt trigger file tmp w).run events).stage = .returned err)
    (hends : enc.Ends (enc.attempt trigger file tmp w) events w data outcome) :
    (!outcome.isSaved) = (w.err || err) := by
  cases outcome with
  | saved =>
    obtain ⟨-, rfl, hstage⟩ := hends
    obtain rfl : err = false := by
      rw [hret] at hstage
      exact SaveStage.returned.inj hstage
    rfl
  | cut written =>
    obtain ⟨-, -, herr⟩ := hends
    rw [hret, SaveStage.returned.injEq] at herr
    rcases herr with herr | herr
    · rw [herr]
      rfl
    · rw [herr, Bool.or_true]
      rfl
  | refused =>
    obtain rfl : err = true := by
      have := Attempt.Filling.start.returned_of_stopped hends
      exact SaveStage.returned.inj (hret.symm.trans this)
    rw [Bool.or_true]
    rfl

/-- **The step of the node is what the attempt does**: the file goes on holding the snapshot of its
storage. -/
theorem writeSnapshot_holds (hw : n.snapshots.writing = (trigger, data) :: rest)
    (hindex : trigger.position.lastIncludedIndex < 2 ^ 64)
    (hterm : trigger.position.lastIncludedTerm < 2 ^ 64)
    (hlen : (enc.attempt trigger file tmp w).unsent.length < 2 ^ 63)
    (hret : ((enc.attempt trigger file tmp w).run events).Returned)
    (hends : enc.Ends (enc.attempt trigger file tmp w) events w data outcome)
    (h : enc.Holds n.log.w.storage file) :
    enc.Holds (n.writeSnapshot outcome).log.w.storage
      ((enc.attempt trigger file tmp w).run events).snap := by
  unfold attempt at hlen hret hends ⊢
  obtain ⟨hstopped, hsaved⟩ := Attempt.Filling.start.snap_of_returned hret
  rw [Node.writeSnapshot, hw]
  cases outcome with
  | saved =>
    obtain ⟨hns, rfl, -⟩ := hends
    rw [hsaved hns]
    exact load_file hindex hterm hlen
  | cut written =>
    obtain ⟨hns, hbytes, -⟩ := hends
    have hfile := load_file hindex hterm hlen
    rw [hsaved hns]
    change load _ = .ok (_, enc.body _)
    rw [body, ← hbytes]
    exact hfile
  | refused =>
    rw [hstopped hends]
    exact h

end Encoding

end Raft
