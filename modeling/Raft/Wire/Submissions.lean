import Raft.Apply.Lockstep
import Raft.Apply.Reports
import Raft.Membership.Turns
import Raft.Wire.Commands

/-!
# What a caller's bytes turn into

A caller hands over bytes, and every replica is to give its state machine these bytes, an
exactly-once command once, and to leave everything else alone.

The core reads the bytes to find its own entries among them.  Bytes that start like a
configuration entry never reach the state machine; bytes that start like an exactly-once
command lose their front, or are dropped as a duplicate.  An identity too long for its two
bytes of length is read back as another client.  And a number that comes again is only
recognised while the table consulted has it on record.
-/

namespace Raft

namespace Command

variable {d : DedupCmd}

theorem decodeDedupCmd_encodeDedupCmd (hid : d.clientID.length < 2 ^ 16) (hseq : d.seqNum < 2 ^ 64) :
    decodeDedupCmd (encodeDedupCmd d) = some d := by
  have htwo := Bytes.length_little 2 d.clientID.length
  have height := Bytes.length_little 8 d.seqNum
  have hlen := Bytes.ofLittle_little (lt_of_lt_of_eq hid (by decide : 2 ^ 16 = 256 ^ 2))
  have hnumber := Bytes.ofLittle_little (lt_of_lt_of_eq hseq (by decide : 2 ^ 64 = 256 ^ 8))
  set rest := Bytes.little 8 d.seqNum ++ d.payload with hrest
  have hbytes : encodeDedupCmd d =
      dedupMagic ++ (Bytes.little 2 d.clientID.length ++ (d.clientID ++ rest)) := by
    simp [encodeDedupCmd, hrest]
  have hfour : (encodeDedupCmd d).drop 4 =
      Bytes.little 2 d.clientID.length ++ (d.clientID ++ rest) := by rw [hbytes]; rfl
  have hsix : (encodeDedupCmd d).drop 6 = d.clientID ++ rest := by
    rw [show 6 = 4 + 2 from rfl, ← List.drop_drop, hfour, List.drop_left' htwo]
  have hbehind : (encodeDedupCmd d).drop (6 + d.clientID.length) = rest := by
    rw [← List.drop_drop, hsix, List.drop_left]
  have hpayload : (encodeDedupCmd d).drop (6 + d.clientID.length + 8) = d.payload := by
    rw [← List.drop_drop, hbehind, hrest, List.drop_left' height]
  have htotal : (encodeDedupCmd d).length = 14 + d.clientID.length + d.payload.length := by
    rw [hbytes, hrest]
    simp only [List.length_append, htwo, height, dedupMagic, List.length_cons, List.length_nil]
    omega
  unfold decodeDedupCmd
  rw [if_neg (by omega), hfour, List.take_left' htwo]
  simp only [hlen, hsix, hbehind, hpayload, List.take_left]
  rw [if_neg (by omega), hrest, List.take_left' height, hnumber]

theorem length_clientID_lt {b : List UInt8} (h : decodeDedupCmd b = some d) :
    d.clientID.length < 2 ^ 16 := by
  simp only [decodeDedupCmd] at h
  split_ifs at h with hshort hcut
  cases h
  have htwo : ((b.drop 4).take 2).length ≤ 2 := List.length_take_le ..
  have hfield : Bytes.ofLittle ((b.drop 4).take 2) < 256 ^ 2 :=
    lt_of_lt_of_le (Bytes.ofLittle_lt _) (Nat.pow_le_pow_right (by decide) htwo)
  exact lt_of_le_of_lt (List.length_take_le ..) hfield

theorem length_payload_lt {b : List UInt8} (h : (user b : Command NodeID).dedup = some d) :
    d.payload.length < b.length := by
  simp only [dedup, decodeDedupCmd] at h
  split_ifs at h with hmagic hshort hcut
  cases h
  rw [List.length_drop]
  omega

theorem take_encodeDedupCmd (d : DedupCmd) : (encodeDedupCmd d).take 4 = dedupMagic := by
  simp [encodeDedupCmd, dedupMagic]

theorem isConfigBytes_encodeDedupCmd (d : DedupCmd) : isConfigBytes (encodeDedupCmd d) = false := by
  simp only [isConfigBytes, take_encodeDedupCmd, dedupMagic, configMagic]
  simp

end Command

/-- A call by which a caller submits a command. -/
inductive Submission
  | propose (cmd : List UInt8)
  | proposeOnce (clientID : ClientID) (seqNum : UInt64) (cmd : List UInt8)
  deriving DecidableEq

namespace Submission

def bytes : Submission → List UInt8
  | propose cmd => cmd
  | proposeOnce clientID seqNum cmd => Command.encodeDedupCmd ⟨clientID, seqNum.toNat, cmd⟩

def cmd : Submission → List UInt8
  | propose cmd => cmd
  | proposeOnce _ _ cmd => cmd

def number : Submission → Option (ClientID × Nat)
  | propose _ => none
  | proposeOnce clientID seqNum _ => some (clientID, seqNum.toNat)

/-- The bytes of Propose look like none of the core's, and the identity of a client fits its length
field. -/
def Plain : Submission → Prop
  | propose cmd => Command.isConfigBytes cmd = false ∧ (Command.user cmd : Command NodeID).dedup = none
  | proposeOnce clientID _ _ => clientID.length < 2 ^ 16

instance (s : Submission) : Decidable s.Plain := by
  cases s <;> unfold Plain <;> infer_instance

theorem Plain.read {s : Submission} (h : s.Plain) :
    Command.read s.bytes = .command (.user s.bytes) := by
  have hno : Command.isConfigBytes s.bytes = false := by
    cases s with
    | propose cmd => exact h.1
    | proposeOnce clientID seqNum cmd => exact Command.isConfigBytes_encodeDedupCmd _
  rw [Command.read, hno]
  rfl

theorem Plain.dedup {s : Submission} (h : s.Plain) : (Command.user s.bytes : Command NodeID).dedup =
    s.number.map fun number => ⟨number.1, number.2, s.cmd⟩ := by
  cases s with
  | propose cmd => exact h.2
  | proposeOnce clientID seqNum cmd =>
    have hdecode := Command.decodeDedupCmd_encodeDedupCmd (d := ⟨clientID, seqNum.toNat, cmd⟩) h
      seqNum.toNat_lt
    exact hdecode

/-- Every call is read back, and none is taken for another or for a configuration entry. -/
structure HeadersSound (calls : Set DedupCmd) : Prop where
  back : ∀ d ∈ calls, Command.decodeDedupCmd (Command.encodeDedupCmd d) = some d
  apart : ∀ d ∈ calls, ∀ d' ∈ calls, Command.encodeDedupCmd d = Command.encodeDedupCmd d' → d = d'
  plain : ∀ d ∈ calls, Command.isConfigBytes (Command.encodeDedupCmd d) = false

/-- **Exactly-once headers** keep their promise exactly when no identity is too long for its
field. -/
theorem headersSound_iff {calls : Set DedupCmd} (hseq : ∀ d ∈ calls, d.seqNum < 2 ^ 64) :
    HeadersSound calls ↔ ∀ d ∈ calls, d.clientID.length < 2 ^ 16 := by
  constructor
  · intro h d hd
    exact Command.length_clientID_lt (h.back d hd)
  · intro hid
    have hback : ∀ d ∈ calls, Command.decodeDedupCmd (Command.encodeDedupCmd d) = some d :=
      fun d hd => Command.decodeDedupCmd_encodeDedupCmd (hid d hd) (hseq d hd)
    refine ⟨hback, fun d hd d' hd' heq => ?_, fun d _ => Command.isConfigBytes_encodeDedupCmd d⟩
    -- Equal bytes are read alike, and each reading is the call itself.
    have hread := hback d hd
    rw [heq, hback d' hd'] at hread
    exact (Option.some.inj hread).symm

/-- An ordinary call, and the same number of another client. -/
theorem headersSound_two_clients :
    HeadersSound {⟨[0x61], 7, [1, 2]⟩, ⟨[0x62], 7, [1, 2]⟩} :=
  (headersSound_iff (by rintro d (rfl | rfl) <;> decide)).mpr (by rintro d (rfl | rfl) <;> decide)

/-- A client with an identity of 65536 bytes is read back as one with an empty identity. -/
theorem long_identity_not_headersSound :
    Command.encodeDedupCmd ⟨List.replicate 65536 0, 0, []⟩ =
        Command.encodeDedupCmd ⟨[], 0, List.replicate 65536 0⟩ ∧
      ¬ HeadersSound {⟨List.replicate 65536 0, 0, []⟩} := by
  refine ⟨?_, fun h => ?_⟩
  · have hlen : Bytes.little 2 65536 = Bytes.little 2 0 := by decide
    have hseq : Bytes.little 8 0 = List.replicate 8 0 := by decide
    simp only [Command.encodeDedupCmd, List.length_replicate, List.length_nil, List.append_nil,
      List.append_assoc, hlen, hseq, List.replicate_append_replicate]
  · have hlt := Command.length_clientID_lt (h.back _ rfl)
    rw [List.length_replicate] at hlt
    omega

end Submission

inductive Origin
  | core (cmd : Command NodeID)
  | caller (s : Submission)
  deriving DecidableEq

/-- A committed entry as it stands in storage. -/
structure WireEntry where
  index : Nat
  term : Nat
  origin : Origin
  deriving DecidableEq

namespace WireEntry

def bytes (e : WireEntry) : List UInt8 :=
  match e.origin with
  | .core cmd => cmd.encode
  | .caller s => s.bytes

def number (e : WireEntry) : Option (ClientID × Nat) :=
  match e.origin with
  | .core _ => none
  | .caller s => s.number

/-- The entry as it was meant: a caller's bytes are a caller's. -/
def entry (e : WireEntry) : LogEntry NodeID :=
  match e.origin with
  | .core cmd => ⟨e.index, e.term, cmd⟩
  | .caller s => ⟨e.index, e.term, .user s.bytes⟩

theorem entry_eq (e : WireEntry) : e.entry = ⟨e.index, e.term, e.entry.command⟩ := by
  unfold entry
  split <;> rfl

end WireEntry

def meant (ranges : List (List WireEntry)) : List (List (LogEntry NodeID)) :=
  ranges.map (·.map (·.entry))

theorem flatten_meant (ranges : List (List WireEntry)) :
    (meant ranges).flatten = ranges.flatten.map (·.entry) :=
  List.map_flatten.symm

variable {numbers : Set (ClientID × Nat)}

namespace ClientLRU

/-- Only the owner's record differs. -/
def LeavesOthers (owner : Option ClientID) (t t' : ClientLRU) : Prop :=
  t'.bound = t.bound ∧ ∀ client, owner ≠ some client → t'.get client = t.get client

def Writes (owner : Option ClientID) (t t' : ClientLRU) : Prop :=
  t' = t ∨ ∃ client v, owner = some client ∧ t' = t.put client v

variable {t : ClientLRU}

theorem Writes.leavesOthers {owner : Option ClientID} {t' : ClientLRU} (h : Writes owner t t')
    (hroom : ∀ client, owner = some client → t.HasRoom client) : LeavesOthers owner t t' := by
  rcases h with rfl | ⟨client, v, howner, rfl⟩
  · exact ⟨rfl, fun _ _ => rfl⟩
  · refine ⟨rfl, fun other hne => Recency.get_put_of_ne v ?_ (hroom client howner)⟩
    rintro rfl
    exact hne howner

def Within (numbers : Set (ClientID × Nat)) (t : ClientLRU) : Prop :=
  ∀ client v, t.get client = some v → (client, v.seqNum) ∈ numbers

theorem Within.put (h : Within numbers t) {client : ClientID} {seq : Nat}
    (hin : (client, seq) ∈ numbers) (value : List UInt8) :
    Within numbers (t.put client ⟨seq, value⟩) := by
  intro client' v hget
  rcases Recency.get_put_eq_some hget with ⟨rfl, rfl⟩ | hold
  · exact hin
  · exact h client' v hold

theorem Within.adjust (h : Within numbers t) (op : ConfigOp NodeID) :
    Within numbers (op.adjust t) := by
  cases op with
  | clientTableCap capacity => exact fun client v hget => h client v (Recency.get_setCap_eq_some hget)
  | _ => exact h

end ClientLRU

namespace ApplyLoop

section Machine

variable (machine : List (LogEntry NodeID) → LogEntry NodeID → ApplyOutcome)
  {before es : List WireEntry} {s : ApplyLoop NodeID × List (PendingEntry NodeID)}
  {a : ApplyLoop NodeID} {ranges : List (List WireEntry)}

/-- One entry of a range, as its bytes are read; one that cannot be read is reported without a
change. -/
def applyWire (s : ApplyLoop NodeID × List (PendingEntry NodeID)) (e : WireEntry) :
    ApplyLoop NodeID × List (PendingEntry NodeID) :=
  match Command.read e.bytes with
  | .command cmd => applyEntry machine s ⟨e.index, e.term, cmd⟩
  | .unreadable => ((flushed machine s).report ⟨e.index, [], false, none, none⟩, [])

def applyWireRange (a : ApplyLoop NodeID) (es : List WireEntry) : ApplyLoop NodeID :=
  flushed machine (es.foldl (applyWire machine) (a, []))

def applyWireRanges (a : ApplyLoop NodeID) (ranges : List (List WireEntry)) : ApplyLoop NodeID :=
  ranges.foldl (applyWireRange machine) a

/-- The state machine receives the bytes of a caller's entry, and nothing but the caller's
record changes. -/
structure PassesOn (a : ApplyLoop NodeID) (before : List WireEntry) (ranges : List (List WireEntry))
    (i : Nat) (e : WireEntry) (sub : Submission) (r : Report NodeID) : Prop where
  given : r.given =
    if sub.number ≠ none ∧ sub.number ∈ (before ++ ranges.flatten.take i).map (·.number) then none
    else some ⟨e.index, e.term, .user sub.cmd⟩
  records : ClientLRU.LeavesOthers (sub.number.map (·.1))
    (afterReports machine a (meant ranges) i).clientTable
    (afterReports machine a (meant ranges) (i + 1)).clientTable
  membership : ∀ (n : Node NodeID) rest, n.apply.results = r.result :: rest →
    n.handleApplyResult.membership = n.membership
  loopRecords : ∀ (n : Node NodeID) rest, n.apply.results = r.result :: rest →
    (∀ client, sub.number.map (·.1) = some client → n.clientTable.HasRoom client) →
    ClientLRU.LeavesOthers (sub.number.map (·.1)) n.clientTable n.handleApplyResult.clientTable

/-- **Commands are opaque** behind `before`: every entry is read as meant, and passed on if a
caller's. -/
structure Faithful (a : ApplyLoop NodeID) (before : List WireEntry) (ranges : List (List WireEntry)) :
    Prop where
  reads : ∀ e ∈ ranges.flatten, Command.read e.bytes = .command e.entry.command
  sm : (applyWireRanges machine a ranges).sm =
    a.sm ++ (reportsOf machine a (meant ranges)).filterMap Report.given
  results : (applyWireRanges machine a ranges).results =
    a.results ++ (reportsOf machine a (meant ranges)).map Report.result
  entries : (reportsOf machine a (meant ranges)).map Report.entry = ranges.flatten.map (·.entry)
  passesOn : ∀ (i : Nat) (e : WireEntry) (sub : Submission) (r : Report NodeID),
    ranges.flatten[i]? = some e → e.origin = .caller sub →
      (reportsOf machine a (meant ranges))[i]? = some r → PassesOn machine a before ranges i e sub r

/-- What is written is read back as what it is, and a number that came before is on record. -/
def KeepsEntry (s : ApplyLoop NodeID × List (PendingEntry NodeID)) (before : List WireEntry)
    (e : WireEntry) : Prop :=
  match e.origin with
  | .core cmd => cmd.Fits ∧ cmd.dedup = none
  | .caller sub => sub.Plain ∧
      (sub.number ≠ none → sub.number ∈ before.map (·.number) →
        (known s.1.clientTable e.entry).isSome)

def KeepsRange :
    ApplyLoop NodeID × List (PendingEntry NodeID) → List WireEntry → List WireEntry → Prop
  | _, _, [] => True
  | s, before, e :: es =>
    KeepsEntry s before e ∧ KeepsRange (applyWire machine s e) (before ++ [e]) es

def KeepsCommands : ApplyLoop NodeID → List WireEntry → List (List WireEntry) → Prop
  | _, _, [] => True
  | a, before, es :: ranges => KeepsRange machine (a, []) before es ∧
      KeepsCommands (applyWireRange machine a es) (before ++ es) ranges

instance (s : ApplyLoop NodeID × List (PendingEntry NodeID)) (before : List WireEntry)
    (e : WireEntry) : Decidable (KeepsEntry s before e) := by
  unfold KeepsEntry
  split <;> infer_instance

instance decidableKeepsRange : (s : ApplyLoop NodeID × List (PendingEntry NodeID)) →
    (before es : List WireEntry) → Decidable (KeepsRange machine s before es)
  | _, _, [] => isTrue trivial
  | s, before, e :: es =>
    have := decidableKeepsRange (applyWire machine s e) (before ++ [e]) es
    inferInstanceAs (Decidable (_ ∧ _))

instance decidableKeepsCommands : (a : ApplyLoop NodeID) → (before : List WireEntry) →
    (ranges : List (List WireEntry)) → Decidable (KeepsCommands machine a before ranges)
  | _, _, [] => isTrue trivial
  | a, before, es :: ranges =>
    have := decidableKeepsCommands (applyWireRange machine a es) (before ++ es) ranges
    inferInstanceAs (Decidable (_ ∧ _))

/-- Every exactly-once command finds room in the table it is recorded in. -/
def FindsRoom (a : ApplyLoop NodeID) (ranges : List (List WireEntry)) : Prop :=
  ∀ p ∈ ranges.flatten.zipIdx, ∀ number ∈ p.1.number,
    (afterReports machine a (meant ranges) p.2).clientTable.HasRoom number.1

instance (a : ApplyLoop NodeID) (ranges : List (List WireEntry)) :
    Decidable (FindsRoom machine a ranges) := inferInstanceAs (Decidable (∀ _ ∈ _, _))

def Recorded (before : List WireEntry) (s : ApplyLoop NodeID × List (PendingEntry NodeID)) : Prop :=
  ClientLRU.Within {number | some number ∈ before.map (·.number)} s.1.clientTable ∧
    ∀ p ∈ s.2, ∀ number, p.note = some number → some number ∈ before.map (·.number)

section Entry

variable {machine} {s : ApplyLoop NodeID × List (PendingEntry NodeID)} {before : List WireEntry}
  {e : WireEntry}

section

variable (h : KeepsEntry s before e)

include h

theorem KeepsEntry.read : Command.read e.bytes = .command e.entry.command := by
  unfold KeepsEntry at h
  unfold WireEntry.bytes WireEntry.entry
  cases horigin : e.origin with
  | core cmd =>
    rw [horigin] at h
    exact Command.read_encode h.1
  | caller sub =>
    rw [horigin] at h
    exact h.1.read

theorem KeepsEntry.plain (sub : Submission) (horigin : e.origin = .caller sub) : sub.Plain := by
  rw [KeepsEntry, horigin] at h
  exact h.1

theorem KeepsEntry.applyWire_eq : applyWire machine s e = applyEntry machine s e.entry := by
  rw [applyWire, h.read, e.entry_eq]

theorem KeepsEntry.dedup :
    e.entry.command.dedup.map (fun d => (d.clientID, d.seqNum)) = e.number := by
  unfold KeepsEntry at h
  unfold WireEntry.number WireEntry.entry
  cases horigin : e.origin with
  | core cmd =>
    rw [horigin] at h
    rw [h.2]
    rfl
  | caller sub =>
    rw [horigin] at h
    rw [h.1.dedup, Option.map_map]
    exact congrFun Option.map_id _

theorem KeepsEntry.note : e.entry.queued.note = e.number := by
  rw [← h.dedup]
  unfold LogEntry.queued
  cases e.entry.command.dedup <;> rfl

end

end Entry

theorem KeepsRange.each {P : WireEntry → Prop}
    (hP : ∀ {s : ApplyLoop NodeID × List (PendingEntry NodeID)} {before e}, KeepsEntry s before e → P e)
    (h : KeepsRange machine s before es) : ∀ e ∈ es, P e := by
  induction es generalizing s before with
  | nil => simp
  | cons e es ih => exact List.forall_mem_cons.mpr ⟨hP h.1, ih h.2⟩

theorem KeepsRange.foldl_eq (h : KeepsRange machine s before es) :
    es.foldl (applyWire machine) s = (es.map (·.entry)).foldl (applyEntry machine) s := by
  induction es generalizing s before with
  | nil => rfl
  | cons e es ih =>
    rw [List.foldl_cons, ih h.2, List.map_cons, List.foldl_cons, h.1.applyWire_eq]

theorem KeepsRange.applyWireRange_eq (h : KeepsRange machine (a, []) before es) :
    applyWireRange machine a es = a.applyEntries machine (es.map (·.entry)) := by
  rw [applyWireRange, h.foldl_eq, applyEntries_eq]

theorem KeepsCommands.each {P : WireEntry → Prop}
    (hP : ∀ {s : ApplyLoop NodeID × List (PendingEntry NodeID)} {before e}, KeepsEntry s before e → P e)
    (h : KeepsCommands machine a before ranges) : ∀ e ∈ ranges.flatten, P e := by
  induction ranges generalizing a before with
  | nil => simp
  | cons es ranges ih =>
    exact List.forall_mem_append.mpr ⟨h.1.each machine hP, ih h.2⟩

/-- **The loop does with the bytes what it would do with the commands.** -/
theorem KeepsCommands.applyWireRanges_eq (h : KeepsCommands machine a before ranges) :
    applyWireRanges machine a ranges = applyRanges machine a (meant ranges) := by
  induction ranges generalizing a before with
  | nil => rfl
  | cons es ranges ih =>
    change applyWireRanges machine (applyWireRange machine a es) ranges =
      applyRanges machine (a.applyEntries machine (es.map (·.entry))) (meant ranges)
    rw [ih h.2, h.1.applyWireRange_eq]

def handsOver (s : ApplyLoop NodeID × List (PendingEntry NodeID)) (e : LogEntry NodeID) : Bool :=
  e.configOp.isNone && (known s.1.clientTable e).isNone

def handedOver : ApplyLoop NodeID × List (PendingEntry NodeID) → List (LogEntry NodeID) → List Bool
  | _, [] => []
  | s, e :: es => handsOver s e :: handedOver (applyEntry machine s e) es

theorem reportsPending_handed (sm : List (LogEntry NodeID)) (run : List (PendingEntry NodeID)) :
    (reportsPending machine sm run).map (·.given.isSome) = run.map fun _ => true := by
  have hlen := congrArg List.length (reportsPending_entries machine sm run).1
  rw [List.length_map, List.length_map] at hlen
  have hall : ∀ r ∈ reportsPending machine sm run, r.given.isSome = true := by
    intro r hr
    obtain ⟨p, -, rfl⟩ := List.mem_map.mp hr
    rfl
  rw [List.map_congr_left hall, List.map_const', List.map_const', hlen]

theorem reportsRange_handed (s : ApplyLoop NodeID × List (PendingEntry NodeID))
    (es : List (LogEntry NodeID)) : (reportsRange machine s es).map (·.given.isSome) =
      (s.2.map fun _ => true) ++ handedOver machine s es := by
  induction es generalizing s with
  | nil => simpa [reportsRange, handedOver] using reportsPending_handed machine s.1.sm s.2
  | cons e es ih =>
    have hpending := reportsPending_handed machine s.1.sm s.2
    rw [reportsRange, List.map_append, ih, handedOver, handsOver]
    rcases applyEntry_cases machine s e with ⟨r, -, -, hgiven, hhands, hreports, happly⟩ |
      ⟨hop, hknown, hreports, happly⟩ <;> rw [hreports, happly]
    · rw [hhands, List.map_append, hpending]
      simp [hgiven]
    · simp [hop, hknown]

/-- No configuration change, and no number that came before. -/
def isNew (before : List WireEntry) (e : WireEntry) : Bool :=
  e.entry.configOp.isNone && !decide (e.number ≠ none ∧ e.number ∈ before.map (·.number))

def areNew : List WireEntry → List WireEntry → List Bool
  | _, [] => []
  | before, e :: es => isNew before e :: areNew (before ++ [e]) es

theorem areNew_append (before es es' : List WireEntry) :
    areNew before (es ++ es') = areNew before es ++ areNew (before ++ es) es' := by
  induction es generalizing before with
  | nil => simp [areNew]
  | cons e es ih => simp [areNew, ih]

theorem getElem?_areNew (before es : List WireEntry) (i : Nat) :
    (areNew before es)[i]? = es[i]?.map (isNew (before ++ es.take i)) := by
  induction es generalizing before i with
  | nil => simp [areNew]
  | cons e es ih =>
    cases i with
    | zero => simp [areNew]
    | succ i => simp [areNew, ih]

theorem flushed_within (h : ClientLRU.Within numbers s.1.clientTable)
    (hrun : ∀ p ∈ s.2, ∀ number, p.note = some number → number ∈ numbers) :
    ClientLRU.Within numbers (flushed machine s).clientTable := by
  -- Each outcome of the run writes the number that waited with it, or nothing.
  have hsettle : ∀ (outs : List (PendingEntry NodeID × ApplyOutcome)) (a : ApplyLoop NodeID),
      ClientLRU.Within numbers a.clientTable →
      (∀ p ∈ outs, ∀ number, p.1.note = some number → number ∈ numbers) →
      ClientLRU.Within numbers (outs.foldl (fun a p => a.settle p.1 p.2) a).clientTable := by
    intro outs
    induction outs with
    | nil => exact fun a ha _ => ha
    | cons p outs ih =>
      intro a ha hnotes
      refine ih _ ?_ fun q hq => hnotes q (List.mem_cons_of_mem _ hq)
      have hnote := hnotes p List.mem_cons_self
      cases hp : p.1.note with
      | none =>
        simp only [settle, hp]
        exact ha
      | some number =>
        simp only [settle, hp, report]
        split_ifs
        · exact ha
        · exact ha.put (hnote number hp) _
  refine hsettle _ _ h fun p hp => hrun p.1 (List.of_mem_zip hp).1

section Recorded

variable {s : ApplyLoop NodeID × List (PendingEntry NodeID)} {before : List WireEntry} {e : WireEntry}

section

variable (h : Recorded before s)

include h

theorem Recorded.flushed : Recorded before (flushed machine s, []) :=
  ⟨flushed_within machine h.1 h.2, by simp⟩

theorem Recorded.concat : Recorded (before ++ [e]) s := by
  have hmem : ∀ number, number ∈ before.map (·.number) → number ∈ (before ++ [e]).map (·.number) := by
    intro number hin
    rw [List.map_append]
    exact List.mem_append_left _ hin
  exact ⟨fun client v hget => hmem _ (h.1 client v hget), fun p hp number hn => hmem _ (h.2 p hp number hn)⟩

theorem Recorded.step (he : KeepsEntry s before e) :
    Recorded (before ++ [e]) (applyEntry machine s e.entry) := by
  have hflushed := (h.flushed machine).concat (e := e)
  cases hop : e.entry.configOp with
  | some op =>
    rw [applyEntry_config machine s hop]
    exact ⟨hflushed.1.adjust op, by simp⟩
  | none =>
    cases hknown : known s.1.clientTable e.entry with
    | some cached =>
      rw [applyEntry_known machine s hknown]
      exact hflushed
    | none =>
      rw [applyEntry_queued machine s hop hknown]
      refine ⟨h.concat.1, List.forall_mem_append.mpr ⟨h.concat.2, List.forall_mem_singleton.mpr ?_⟩⟩
      simp +contextual [he.note]

theorem Recorded.handsOver (he : KeepsEntry s before e) : handsOver s e.entry = isNew before e := by
  unfold ApplyLoop.handsOver isNew
  congr 1
  cases hknown : known s.1.clientTable e.entry with
  | some cached =>
    obtain ⟨d, hd, hget, hseq⟩ := known_eq_some hknown
    have hnumber : e.number = some (d.clientID, d.seqNum) := by
      rw [← he.dedup, hd]
      rfl
    have hin := h.1 d.clientID cached hget
    rw [hseq] at hin
    simp only [Option.isNone_some, hnumber]
    simpa using hin
  | none =>
    symm
    simp only [Option.isNone_none, Bool.not_eq_true', decide_eq_false_iff_not]
    rintro ⟨hsome, hin⟩
    unfold KeepsEntry at he
    unfold WireEntry.number at hsome hin
    cases horigin : e.origin with
    | core cmd => simp [horigin] at hsome
    | caller sub =>
      rw [horigin] at he hsome hin
      simpa [hknown] using he.2 hsome hin

end

end Recorded

theorem Recorded.range (h : Recorded before s) (hes : KeepsRange machine s before es) :
    handedOver machine s (es.map (·.entry)) = areNew before es ∧
      Recorded (before ++ es) ((es.map (·.entry)).foldl (applyEntry machine) s) := by
  induction es generalizing s before with
  | nil => simpa [handedOver, areNew] using h
  | cons e es ih =>
    have hstep := h.step machine hes.1
    have hrest := hes.2
    rw [hes.1.applyWire_eq] at hrest
    obtain ⟨hhanded, hrecorded⟩ := ih hstep hrest
    rw [List.map_cons, handedOver, areNew, h.handsOver hes.1, hhanded]
    exact ⟨rfl, by simpa using hrecorded⟩

/-- **Exactly the new entries are handed over.** -/
theorem Recorded.reportsOf (h : Recorded before (a, []))
    (hranges : KeepsCommands machine a before ranges) :
    (reportsOf machine a (meant ranges)).map (·.given.isSome) = areNew before ranges.flatten := by
  induction ranges generalizing a before with
  | nil => rfl
  | cons es ranges ih =>
    obtain ⟨hhanded, hrecorded⟩ := h.range machine hranges.1
    have hnext : Recorded (before ++ es) (a.applyEntries machine (es.map (·.entry)), []) := by
      exact hrecorded.flushed machine
    have hrest := hranges.2
    rw [hranges.1.applyWireRange_eq] at hrest
    change (reportsRange machine (a, []) (es.map (·.entry)) ++
      ApplyLoop.reportsOf machine (a.applyEntries machine (es.map (·.entry))) (meant ranges)).map _ = _
    rw [List.map_append, reportsRange_handed, hhanded, ih hnext hrest, List.flatten_cons, areNew_append]
    rfl

section OneReport

variable {sub : Submission} {e : WireEntry} {r : Report NodeID}

section

variable (horigin : e.origin = .caller sub)

include horigin

theorem entry_of_caller : e.entry = ⟨e.index, e.term, .user sub.bytes⟩ := by
  rw [WireEntry.entry, horigin]

theorem configOp_of_caller : e.entry.configOp = none := by
  rw [entry_of_caller horigin]
  rfl

theorem queued_of_plain (hplain : sub.Plain) :
    e.entry.queued = ⟨⟨e.index, e.term, .user sub.cmd⟩, e.entry, sub.number⟩ := by
  rw [LogEntry.queued, entry_of_caller horigin]
  rw [hplain.dedup]
  cases sub <;> rfl

theorem given_of_caller (hplain : sub.Plain) (hr : r.Genuine) (hentry : r.entry = e.entry) :
    r.given = if r.given.isSome then some ⟨e.index, e.term, .user sub.cmd⟩ else none := by
  cases r with
  | handed p out =>
    obtain ⟨e', rfl, -⟩ := hr
    rw [Report.entry, LogEntry.queued_raw] at hentry
    rw [hentry, Report.given, queued_of_plain horigin hplain]
    rfl
  | known e' cached | config e' op => rfl

theorem writes_update (hplain : sub.Plain) (hr : r.Genuine) (hentry : r.entry = e.entry)
    (t : ClientLRU) : ClientLRU.Writes (sub.number.map (·.1)) t (r.update t) := by
  cases r with
  | handed p out =>
    obtain ⟨e', rfl, -⟩ := hr
    rw [Report.entry, LogEntry.queued_raw] at hentry
    rw [hentry, Report.update, queued_of_plain horigin hplain]
    cases hnumber : sub.number with
    | none => exact .inl rfl
    | some number =>
      split_ifs
      · exact .inl rfl
      · exact .inr ⟨number.1, _, rfl, rfl⟩
  | known e' cached => exact .inl rfl
  | config e' op =>
    -- a caller's entry is not one of the core's
    have hcmd : e'.command = .config op := hr
    rw [Report.entry] at hentry
    rw [hentry, entry_of_caller horigin] at hcmd
    cases hcmd

theorem result_of_caller (hr : r.Genuine) (hentry : r.entry = e.entry) :
    r.result.configCmd = none ∧ r.result.cmd = some (.user sub.bytes) := by
  refine ⟨by rw [Report.configCmd_eq hr, hentry, configOp_of_caller horigin], ?_⟩
  have hcmd : r.entry.command = .user sub.bytes := by rw [hentry, entry_of_caller horigin]
  rw [← hcmd]
  cases r <;> rfl

end

theorem writes_note (hplain : sub.Plain) {res : ApplyResult NodeID}
    (hcmd : res.cmd = some (.user sub.bytes)) (t : ClientLRU) :
    ClientLRU.Writes (sub.number.map (·.1)) t (res.note t) := by
  unfold ApplyResult.note
  rw [hcmd, Option.bind_some, hplain.dedup]
  cases sub.number with
  | none => exact .inl rfl
  | some number =>
    dsimp only [Option.map_some]
    split_ifs
    · exact .inl rfl
    · exact .inr ⟨number.1, _, rfl, rfl⟩

theorem handleApplyResult_membership {n : Node NodeID} {res : ApplyResult NodeID}
    {rest : List (ApplyResult NodeID)} (hres : n.apply.results = res :: rest)
    (hop : res.configCmd = none) : n.handleApplyResult.membership = n.membership := by
  rw [Node.handleApplyResult, hres]
  dsimp only
  rw [hop]
  obtain ⟨t, snaps, a, heq⟩ := Node.noteOutcome_eq { n with
    apply := { n.apply with results := rest }, lastApplied := max n.lastApplied res.index } res
  rw [heq]

end OneReport

theorem afterReports_succ {ranges : List (List (LogEntry NodeID))} {i : Nat} {r : Report NodeID}
    (hr : (reportsOf machine a ranges)[i]? = some r) :
    (afterReports machine a ranges (i + 1)).clientTable =
      r.update (afterReports machine a ranges i).clientTable := by
  have htake : (reportsOf machine a ranges).take (i + 1) = (reportsOf machine a ranges).take i ++ [r] := by
    rw [List.take_add_one, hr]
    rfl
  rw [afterReports, htake, performAll_append]
  rfl

/-- **Commands are opaque** when bytes look like what they are, numbers are on record, and
there is room. -/
theorem faithful_of_keeps {a : ApplyLoop NodeID} {before : List WireEntry}
    {ranges : List (List WireEntry)} (hrecorded : Recorded before (a, []))
    (hkeeps : KeepsCommands machine a before ranges) (hroom : FindsRoom machine a ranges) :
    Faithful machine a before ranges := by
  have hentries : (reportsOf machine a (meant ranges)).map Report.entry =
      ranges.flatten.map (·.entry) := by rw [reportsOf_entries, flatten_meant]
  refine
    { reads := hkeeps.each machine KeepsEntry.read
      sm := by rw [hkeeps.applyWireRanges_eq, applyRanges_sm]
      results := by rw [hkeeps.applyWireRanges_eq, applyRanges_results]
      entries := hentries
      passesOn := ?_ }
  intro i e sub r he horigin hr
  have hplain := hkeeps.each machine KeepsEntry.plain e (List.mem_of_getElem? he) sub horigin
  have hgenuine := reportsOf_genuine machine a (meant ranges) r (List.mem_of_getElem? hr)
  -- the report at a place is about the entry at that place
  have hentry : r.entry = e.entry := by
    have hget := congrArg (·[i]?) hentries
    rw [List.getElem?_map, List.getElem?_map, hr, he] at hget
    exact Option.some.inj hget
  obtain ⟨hop, hcmd⟩ := result_of_caller horigin hgenuine hentry
  have hnumber : e.number = sub.number := by rw [WireEntry.number, horigin]
  have hnew : r.given.isSome = isNew (before ++ ranges.flatten.take i) e := by
    have hget := congrArg (·[i]?) (hrecorded.reportsOf machine hkeeps)
    simpa [getElem?_areNew, hr, he] using hget
  constructor
  case given =>
    rw [given_of_caller horigin hplain hgenuine hentry, hnew, isNew, configOp_of_caller horigin,
      hnumber]
    by_cases hold : sub.number ≠ none ∧
        sub.number ∈ (before ++ ranges.flatten.take i).map (·.number)
    · rw [if_pos hold]
      simp only [decide_eq_true hold, Bool.not_true, Bool.and_false, Bool.false_eq_true, if_false]
    · rw [if_neg hold]
      simp only [decide_eq_false hold, Bool.not_false, Option.isNone_none, Bool.and_true, if_true]
  case records =>
    rw [afterReports_succ machine hr]
    refine (writes_update horigin hplain hgenuine hentry _).leavesOthers fun client hclient => ?_
    obtain ⟨number, hsome, rfl⟩ := Option.map_eq_some_iff.mp hclient
    exact hroom (e, i) (List.mem_zipIdx_iff_getElem?.mpr he) number (hnumber.trans hsome)
  case membership =>
    exact fun n rest hres => handleApplyResult_membership hres hop
  case loopRecords =>
    intro n rest hres hfits
    rw [Node.handleApplyResult_clientTable hres, ApplyResult.record, hop]
    exact (writes_note hplain hcmd _).leavesOthers hfits

/-- **The bytes of Propose arrive** exactly when they look like none of the core's. -/
theorem sm_propose_iff (a : ApplyLoop NodeID) (index term : Nat) (cmd : List UInt8) :
    (applyWireRange machine a [⟨index, term, .caller (.propose cmd)⟩]).sm =
      a.sm ++ [⟨index, term, .user cmd⟩] ↔ (Submission.propose cmd).Plain := by
  -- the entry is kept by the core, or it waits to be handed over
  have hsm : ∀ x, applyWire machine (a, []) ⟨index, term, .caller (.propose cmd)⟩ = x →
      x.1.sm = a.sm → (applyWireRange machine a [⟨index, term, .caller (.propose cmd)⟩]).sm =
        a.sm ++ x.2.map (·.entry) := by
    rintro _ rfl hsame
    rw [← hsame]
    exact applyPending_sm machine _ _
  have hflushed : (flushed machine (a, [])).sm = a.sm := by rw [flushed_nil]
  unfold applyWire at hsm
  simp only [WireEntry.bytes, Submission.bytes] at hsm
  by_cases hconfig : Command.isConfigBytes cmd = true
  · refine iff_of_false ?_ fun hplain => absurd hconfig (by simp [hplain.1])
    rcases Command.read_of_isConfigBytes hconfig with ⟨op, hread⟩ | hread <;> simp only [hread] at hsm
    · rw [hsm _ (applyEntry_config machine (a, []) rfl) hflushed]
      simp
    · rw [hsm _ rfl hflushed]
      simp
  · have hno : Command.isConfigBytes cmd = false := by simpa using hconfig
    have hread : Command.read cmd = .command (.user cmd) := by
      rw [Command.read, hno]
      rfl
    simp only [hread] at hsm
    cases hknown : known a.clientTable (⟨index, term, .user cmd⟩ : LogEntry NodeID) with
    | some cached =>
      obtain ⟨d, hd, -⟩ := known_eq_some hknown
      rw [hsm _ (applyEntry_known machine (a, []) hknown) hflushed]
      refine iff_of_false (by simp) fun hplain => ?_
      cases hplain.2.symm.trans hd
    | none =>
      rw [hsm _ (applyEntry_queued machine (a, []) rfl hknown) rfl, List.append_cancel_left_eq]
      simp only [LogEntry.queued, List.nil_append, List.map_cons, List.map_nil, Submission.Plain, hno,
        true_and]
      cases hdedup : (Command.user cmd : Command NodeID).dedup with
      | none => simp
      | some d =>
        -- the header is taken off
        have hlen := Command.length_payload_lt hdedup
        refine iff_of_false (fun hall => ?_) (by simp)
        simp only [List.cons.injEq, LogEntry.mk.injEq, Command.user.injEq, true_and, and_true] at hall
        rw [hall] at hlen
        exact Nat.lt_irrefl _ hlen

end Machine

def unused : ApplyLoop NodeID := ⟨none, none, none, 0, .empty 0, [], []⟩

def removal : List UInt8 := [0x00, 0x52, 0x61, 0x43, 0x02, 0x00, 0x62]

def removing : Node NodeID :=
  { Node.start (.ofPeers [0x61] [[0x62]]) .empty with
    apply := applyWireRanges (fun _ _ => ⟨[], false⟩) unused [[⟨1, 1, .caller (.propose removal)⟩]] }

/-- The state machine never sees the bytes, and the member is removed from the group. -/
theorem propose_removes_member :
    removing.apply.sm = [] ∧ removing.apply.results.map (·.configCmd) = [some (.remove [0x62])] ∧
      removing.membership.peers.map (·.id) = [[0x62]] ∧
      removing.handleApplyResult.membership.peers.map (·.id) = [] := by
  decide +kernel

def retried : List (List WireEntry) :=
  [[⟨1, 1, .caller (.propose [1])⟩, ⟨2, 1, .caller (.proposeOnce [7] 1 [2])⟩],
    [⟨3, 1, .caller (.proposeOnce [7] 1 [2])⟩]]

/-- The retry is not handed over again. -/
theorem faithful_of_retry :
    Faithful (fun _ _ => ⟨[9], false⟩) unused [] retried ∧
      (applyWireRanges (fun _ _ => ⟨[9], false⟩) unused retried).sm =
        [⟨1, 1, .user [1]⟩, ⟨2, 1, .user [2]⟩] := by
  have hrecorded : Recorded [] (unused, []) := by
    refine ⟨fun client v hget => ?_, by simp⟩
    cases hget
  exact ⟨faithful_of_keeps _ hrecorded (by decide +kernel) (by decide +kernel), by decide +kernel⟩

end ApplyLoop

end Raft
