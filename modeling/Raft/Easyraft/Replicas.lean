import Raft.Easyraft.Revisions
import Raft.Easyraft.Snapshots

/-!
# Restored replicas

A replica that restores a snapshot and goes on from there should not be told apart from one that
applied every entry.  It is not, when the store comes back from its snapshot, and what that takes is
kept by every entry that is plain: it names no collection that stands for something else in a
snapshot, writes no value without a text, grants no lease under the number of one that is there, and
imports no backup in which the leases disagree on who owns a key.
-/

namespace Raft.Easyraft

open Std Token

def entryBytes (_ : Name) (k : Name) (value : Value) : Int := k.utf8ByteSize + value.length

theorem recount_eq (s : Store) : s.recount =
    { s with stateBytes := s.collections.total entryBytes, keyCount := s.collections.total fun _ _ _ => 1 } := by
  have hbytes : (s.collections.toList.flatMap fun coll =>
      coll.2.toList.map fun item => (item.1.utf8ByteSize + item.2.length : Int)).sum =
        s.collections.total entryBytes := by
    rw [List.flatMap, List.sum_flatten, List.map_map]
    rfl
  have hcount : ((s.collections.toList.flatMap fun coll =>
      coll.2.toList.map fun item => (item.1.utf8ByteSize + item.2.length : Int)).length : Int) =
        s.collections.total fun _ _ _ => 1 := by
    rw [List.length_flatMap, Nested.total, total]
    induction s.collections.toList with
    | nil => rfl
    | cons coll colls ih =>
      rw [List.map_cons, List.sum_cons, List.map_cons, List.sum_cons, ← ih, total]
      simp
  unfold Store.recount
  dsimp only
  rw [hbytes, hcount]

/-- The counters are those of the collections. -/
def Store.Counted (s : Store) : Prop :=
  s.stateBytes = s.collections.total entryBytes ∧ s.keyCount = s.collections.total fun _ _ _ => 1

theorem counted_iff (s : Store) : s.recount = s ↔ s.Counted := by
  rw [recount_eq]
  constructor
  · intro h
    exact ⟨(congrArg Store.stateBytes h).symm, (congrArg Store.keyCount h).symm⟩
  · rintro ⟨hbytes, hcount⟩
    rw [← hbytes, ← hcount]

variable {h : Hold} {ref : KeyRef} {rev : Option Nat} {s s' : Store} {value : Option Value}
  {x : Session} {codec : Codec} {env : Env}

/-- A change of one key changes a sum over all keys by what it adds and takes away. -/
theorem Store.total_of_valueAt (hvalue : ∀ r, s'.valueAt r = if ref = r then value else s.valueAt r)
    (hmem : ∀ c, c ∈ s'.collections ↔ c ∈ s.collections) (hin : ref.collection ∈ s.collections)
    (f : Name → Name → Value → Int) : s'.collections.total f = s.collections.total f - ((s.valueAt ref).elim 0 (f ref.collection ref.key)) +
      value.elim 0 (f ref.collection ref.key) := by
  have hlookup := fun c k =>
    (hvalue ⟨c, k⟩).trans (if_congr (ref_eq_iff ref ⟨c, k⟩).symm rfl rfl)
  cases value with
  | some v =>
    have hset : s'.collections = s.collections.set ref.collection ref.key v := by
      refine Nested.ext (fun c => ?_) fun c k => ?_
      · rw [hmem, Nested.mem_set]
        exact ⟨.inr, fun hc => hc.elim (fun heq => heq ▸ hin) id⟩
      · rw [Nested.lookup_set]
        exact hlookup c k
    rw [hset, Nested.total_set]
    rfl
  | none =>
    have hremove : s'.collections = s.collections.remove ref.collection ref.key := by
      refine Nested.ext (fun c => ?_) fun c k => ?_
      · rw [hmem, Nested.mem_remove]
      · rw [Nested.lookup_remove]
        exact hlookup c k
    rw [hremove, Nested.total_remove, Option.elim_none, add_zero]
    rfl

theorem Store.counted_of_valueAt
    (hvalue : ∀ r, s'.valueAt r = if ref = r then value else s.valueAt r)
    (hmem : ∀ c, c ∈ s'.collections ↔ c ∈ s.collections) (hin : ref.collection ∈ s.collections)
    (hbytes : s'.stateBytes = s.stateBytes - bytesOf ref (s.valueAt ref) + bytesOf ref value)
    (hcount : s'.keyCount = s.keyCount - countOf (s.valueAt ref) + countOf value)
    (hc : s.Counted) : s'.Counted := by
  refine ⟨?_, ?_⟩
  · rw [hbytes, total_of_valueAt hvalue hmem hin, hc.1]
    cases s.valueAt ref <;> cases value <;> rfl
  · rw [hcount, total_of_valueAt hvalue hmem hin, hc.2]
    cases s.valueAt ref <;> cases value <;> rfl

theorem Store.Counted.opened (hc : x.store.Counted) (c : Name) : (x.openCollection c).store.Counted :=
  ⟨hc.1.trans (Nested.total_opened ..).symm, hc.2.trans (Nested.total_opened ..).symm⟩

theorem Store.Counted.rolledBack (hc : s.Counted) (env : Env) (rev : Nat) (cmds : List Command) :
    ((applyAll env rev (.start s) cmds).1.rolledBack s).Counted := by
  obtain ⟨b, cs, hback, heq, -⟩ := rolledBack_spec env rev s cmds
  rw [heq]
  unfold Store.Counted
  rw [hback.collections_eq, (removeCreated_foldl cs b).eq]
  exact ⟨hback.stateBytes.trans hc.1, hback.keyCount.trans hc.2⟩

/-- A store that comes back from its snapshot, with every key that is owned in a collection. -/
structure Store.Steady (s : Store) : Prop extends s.Restorable where
  placed : ∀ ref : KeyRef, s.keyLeases[ref]? ≠ none → ref.collection ∈ s.collections

theorem Hold.Owned.attach (ho : h.Owned) (live : Nat → Bool) (lease : Nat) :
    (h.attach live lease).Owned := by
  -- no other lease is left that lists the key
  have hdetach : (h.detachUnless lease).Owned ∧
      ((h.detachUnless lease).owner = none ∨ (h.detachUnless lease).owner = some lease) := by
    unfold Hold.detachUnless
    cases hown : h.owner with
    | none => exact ⟨ho, .inl hown⟩
    | some previous =>
      dsimp only
      split_ifs with heq
      · exact ⟨ho, .inr (hown.trans (congrArg some heq))⟩
      · refine ⟨fun id => ?_, .inl rfl⟩
        have hid := ho id
        grind
  unfold Hold.attach
  split_ifs with hdead
  · exact hdetach.1
  · intro id
    have hid := hdetach.1 id
    grind

theorem Store.Steady.keyStep (h : s.Steady) {m : Nat}
    (hs : KeyStep s s' ref value rev ((s.hold ref).attach s.live m))
    (hin : ref.collection ∈ s.collections) (hvalue : value ≠ some []) : s'.Steady where
  named c hc := h.named c ((hs.mem_collections c).mp hc)
  valued r := by
    rw [hs.valueAt]
    split_ifs
    · exact hvalue
    · exact h.valued r
  counted := (counted_iff s').mpr (counted_of_valueAt hs.valueAt hs.mem_collections hin hs.stateBytes
    hs.keyCount ((counted_iff s).mp h.counted))
  owned r := by
    rw [hs.hold]
    split_ifs
    · exact (h.owned ref).attach s.live m
    · exact h.owned r
  placed r hr := by
    rw [hs.mem_collections]
    by_cases heq : ref = r
    · exact heq ▸ hin
    · have hhold := hs.hold r
      rw [if_neg heq] at hhold
      exact h.placed r fun hnone => hr ((congrArg Hold.owner hhold).trans hnone)

theorem Store.Steady.opened (h : x.store.Steady) {c : Name} (hc : isSnapshotKey c = false) :
    (x.openCollection c).store.Steady := by
  have hopen := openCollection_spec x c
  refine ⟨⟨fun c' hc' => ?_, fun r => ?_, ?_, fun r => ?_⟩, fun r hr => ?_⟩
  · rcases (hopen.mem_collections c').mp hc' with rfl | hin
    · exact hc
    · exact h.named c' hin
  · rw [hopen.valueAt]
    exact h.valued r
  · exact (counted_iff _).mpr (((counted_iff _).mp h.counted).opened c)
  · exact h.owned r
  · rw [hopen.mem_collections]
    exact .inr (h.placed r hr)

/-- A step that names a collection of its own and writes a text. -/
structure Step.Plain (p : Step) : Prop where
  named : isSnapshotKey p.ref.collection = false
  written : p.effect ≠ some (.put [])

theorem Store.Steady.step (h : x.store.Steady) (rev : Nat) {p : Step} (hp : p.Plain)
    (hallowed : p.Allowed x.store) : (x.step rev p).store.Steady := by
  have hopened := h.opened hp.named
  cases hmove : p.move with
  | none =>
    rw [step_of_move_none hmove]
    exact hopened
  | some m =>
    obtain ⟨effect, heffect, hdo⟩ := step_spec rev hmove hallowed
    have hin := ((openCollection_spec x p.ref.collection).mem_collections _).mpr (.inl rfl)
    refine hopened.keyStep hdo hin ?_
    have hwritten := hp.written
    rw [heffect] at hwritten
    cases effect with
    | keep => simp [Effect.outcome]
    | put value =>
      intro heq
      exact hwritten (by rw [Option.some.inj heq])
    | drop => simp [Effect.outcome]

theorem Store.Steady.steps (h : x.store.Steady) (rev : Nat) {tr : List Step}
    (hp : ∀ p ∈ tr, p.Plain) (hallowed : AllowedAll rev x tr) :
    (tr.foldl (Session.step rev) x).store.Steady := by
  induction tr generalizing x with
  | nil => exact h
  | cons p tr ih =>
    obtain ⟨hplain, hrest⟩ := List.forall_mem_cons.mp hp
    exact ih (h.step rev hplain hallowed.1) hrest hallowed.2

theorem Hold.Owned.backAgain {live : Nat → Bool} (leases : List Nat) (ho : h.Owned) :
    (Hold.backAgain live leases h).Owned := by
  induction leases generalizing h with
  | nil => exact ho
  | cons l leases ih => exact (ih (ho.attach live l)).attach live _

theorem Store.Steady.rolledBack (h : s.Steady) (env : Env) (rev : Nat) (cmds : List Command) :
    ((applyAll env rev (.start s) cmds).1.rolledBack s).Steady := by
  have hcounted := (counted_iff _).mpr (((counted_iff s).mp h.counted).rolledBack env rev cmds)
  obtain ⟨b, cs, hback, heq, hlive⟩ := rolledBack_spec env rev s cmds
  rw [heq] at hcounted ⊢
  set f := cs.foldl Journal.removeCreated b
  have hremoved : Removed b f cs := removeCreated_foldl cs b
  -- a key that no lease owned is owned by none again, whatever became of its collection
  have hnone : ∀ r : KeyRef, s.keyLeases[r]? = none → b.keyLeases[r]? = none := by
    intro r hr
    refine (congrArg Hold.owner (hback.hold r)).trans ?_
    exact Hold.owner_backAgain_of_none (hlive r) hr
  have howner : ∀ r : KeyRef, f.keyLeases[r]? = b.keyLeases[r]? := by
    intro r
    rw [hremoved.owner]
    split_ifs with hc
    · refine (hnone r (by_contra fun hne => ?_)).symm
      exact ((hback.created _).mp hc).1 (h.placed r hne)
    · rfl
  have hhold : ∀ r, f.hold r = b.hold r := by
    intro r
    refine Hold.ext (howner r) ?_
    rw [hremoved.eq]
    rfl
  have hcollections : f.collections = s.collections := hback.collections_eq
  refine ⟨⟨?_, fun r => ?_, hcounted, fun r => ?_⟩, fun r hr => ?_⟩
  · rw [hcollections]
    exact h.named
  · change f.collections.lookup r.collection r.key ≠ some []
    rw [hcollections]
    exact h.valued r
  · change (f.hold r).Owned
    rw [hhold, hback.hold]
    exact (h.owned r).backAgain _
  · rw [hcollections]
    refine h.placed r fun hr' => ?_
    exact hr ((howner r).trans (hnone r hr'))

theorem Store.Steady.congr (h : s.Steady) (hc : s'.collections = s.collections)
    (hbytes : s'.stateBytes = s.stateBytes) (hcount : s'.keyCount = s.keyCount)
    (hhold : ∀ r, s'.hold r = s.hold r) : s'.Steady where
  named c hin := h.named c (by rwa [hc] at hin)
  valued r := by
    rw [Store.valueAt, hc]
    exact h.valued r
  counted := by
    have hcounted := (counted_iff s).mp h.counted
    exact (counted_iff s').mpr ⟨by rw [hbytes, hc]; exact hcounted.1, by rw [hcount, hc]; exact hcounted.2⟩
  owned r := by
    rw [hhold]
    exact h.owned r
  placed r hr := by
    rw [hc]
    exact h.placed r fun hnone => hr ((congrArg Hold.owner (hhold r)).trans hnone)

/-- What the removal of the keys of a lease leaves of a store. -/
structure Store.Cleared (s s' : Store) (id : Nat) (refs : List KeyRef) : Prop where
  leases : s'.leases = s.leases
  owner : ∀ r, s'.keyLeases[r]? = if s.keyLeases[r]? = some id ∧ r ∈ refs then none else s.keyLeases[r]?
  mem_collections : ∀ c, c ∈ s'.collections ↔ c ∈ s.collections
  valueAt : ∀ r, s'.valueAt r = none ∨ s'.valueAt r = s.valueAt r
  counted : s.Counted → s'.Counted

theorem dropKey_cleared (s : Store) (ref : KeyRef) (id : Nat) : s.Cleared (s.dropKey ref) id [] := by
  cases hv : s.valueAt ref with
  | none =>
    rw [Store.dropKey_of_none hv]
    exact ⟨rfl, by simp, fun _ => Iff.rfl, fun _ => .inr rfl, fun h => h⟩
  | some value =>
    have hstep := @Store.dropKey_spec s ref (by rw [hv]; rfl)
    have hin : ref.collection ∈ s.collections := Nested.mem_of_lookup hv
    refine ⟨hstep.leases, by simp [hstep.keyLeases], hstep.mem_collections hin, fun r => ?_,
      Store.counted_of_valueAt hstep.valueAt (hstep.mem_collections hin) hin hstep.stateBytes
        hstep.keyCount⟩
    rw [hstep.valueAt]
    split_ifs
    · exact .inl rfl
    · exact .inr rfl

theorem deleteLeaseKeys_cleared (s : Store) (id : Nat) (held : LeaseState) :
    s.Cleared (s.deleteLeaseKeys id held) id held.keys.toList := by
  unfold Store.deleteLeaseKeys
  generalize held.keys.toList = refs
  induction refs generalizing s with
  | nil => exact ⟨rfl, by simp, fun _ => Iff.rfl, fun _ => .inr rfl, fun h => h⟩
  | cons ref refs ih =>
    rw [List.foldl_cons]
    split_ifs with hown
    · set s₁ := ({ s.dropKey ref with keyLeases := (s.dropKey ref).keyLeases.erase ref } : Store).emit
        ⟨ref, [], true⟩ with hs₁
      have hrest := ih s₁
      have hdrop := dropKey_cleared s ref id
      refine ⟨hrest.leases.trans hdrop.leases, fun r => ?_,
        fun c => (hrest.mem_collections c).trans (hdrop.mem_collections c), fun r => ?_,
        fun hc => hrest.counted (hdrop.counted hc)⟩
      · have howner : s₁.keyLeases[r]? = if ref = r then none else s.keyLeases[r]? := by
          change ((s.dropKey ref).keyLeases.erase ref)[r]? = _
          rw [ExtTreeMap.getElem?_erase, hdrop.owner]
          simp
        rw [hrest.owner, howner]
        grind
      · rcases hrest.valueAt r with hnone | hsame
        · exact .inl hnone
        · rw [hsame]
          exact hdrop.valueAt r
    · refine { ih s with owner := fun r => ?_ }
      rw [(ih s).owner]
      grind

theorem Store.Steady.revoke (h : s.Steady) {id : Nat} {held : LeaseState}
    (hheld : s.leases[id]? = some held) (rev : Nat) :
    (Store.advance { s.deleteLeaseKeys id held with
      leases := (s.deleteLeaseKeys id held).leases.erase id } rev).Steady := by
  have hcleared := deleteLeaseKeys_cleared s id held
  set d := s.deleteLeaseKeys id held
  have hlisted : ∀ (r : KeyRef) (j : Nat), ((d.leases.erase id)[j]?).any (·.keys.contains r) =
      ((s.hold r).listed j && j != id) := by
    intro r j
    rw [hcleared.leases, ExtTreeMap.getElem?_erase, hold]
    grind
  refine ⟨⟨fun c hc => h.named c ((hcleared.mem_collections c).mp hc), fun r => ?_, ?_, fun r j => ?_⟩,
    fun r hr => ?_⟩
  · change d.valueAt r ≠ some []
    rcases hcleared.valueAt r with hsame | hsame <;> rw [hsame]
    · simp
    · exact h.valued r
  · refine (counted_iff _).mpr ?_
    exact hcleared.counted ((counted_iff s).mp h.counted)
  · change d.keyLeases[r]? = some j ↔ ((d.leases.erase id)[j]?).any (·.keys.contains r) = true
    rw [hlisted, hcleared.owner]
    have hj := h.owned r j
    have hid := h.owned r id
    -- the keys the lease owned are those it listed
    have hkeys : s.keyLeases[r]? = some id ↔ r ∈ held.keys.toList := by
      refine hid.trans ?_
      change (s.leases[id]?).any (·.keys.contains r) = true ↔ _
      rw [hheld, ExtTreeSet.mem_toList]
      simp
    change s.keyLeases[r]? = some j ↔ _ at hj
    grind
  · refine (hcleared.mem_collections _).mpr (h.placed r ?_)
    change d.keyLeases[r]? ≠ none at hr
    rw [hcleared.owner] at hr
    split_ifs at hr
    · exact absurd rfl hr
    · exact hr

theorem Store.Steady.leaseCommand (h : s.Steady) (rev : Nat) (o : Operation)
    (hgrant : o.op = .leaseGrant → rev ∉ s.leases) : (s.applyLeaseCommand rev o).1.Steady := by
  rcases applyLeaseCommand_cases rev s o with ⟨res, heq⟩ | ⟨id, held, res, hkeys, heq⟩ | ⟨held, hheld, heq⟩ <;>
    rw [heq]
  · exact h
  · refine h.congr rfl rfl rfl fun r => Hold.ext rfl (funext fun j => ?_)
    change ((s.leases.insert id held)[j]?).any (·.keys.contains r) = (s.leases[j]?).any (·.keys.contains r)
    rw [ExtTreeMap.getElem?_insert]
    simp only [Std.compare_eq_iff_eq]
    split_ifs with hj
    · -- the lease is new and has no keys, or it is there with the same ones
      subst hj
      rcases hkeys with ⟨hop, rfl, hnone⟩ | ⟨-, -, hkeys⟩
      · simp [ExtTreeMap.getElem?_eq_none (hgrant hop), hnone]
      · obtain ⟨held', hheld', heq'⟩ := Option.map_eq_some_iff.mp hkeys
        rw [hheld', Option.any_some, Option.any_some, heq']
    · rfl
  · exact h.revoke hheld rev

/-- What encoding/json does for a store: backups are read token by token, and no value has an empty
text. -/
structure Env.Encodes (env : Env) (codec : Codec) : Prop where
  backups : ∀ data d, env.decodeSnapshot data = .ok d →
    ∃ ts, (∀ t ∈ ts, hasText t) ∧ Easyraft.decodeSnapshot codec ts = .ok d
  mutations : ∀ c named name fn current args value resp, env.mutations c = some named →
    named name = some fn → fn current args = .ok (value, resp) → value ≠ []

/-- An operation on a key of a named collection, which gives the text of a value it writes. -/
def Operation.Plain (o : Operation) : Prop :=
  o.onKey = true → isSnapshotKey o.ref.collection = false ∧
    (o.op = .create ∨ o.op = .update ∨ o.op = .upsert → o.value ≠ [])
  deriving Decidable

/-- A backup in which every key a lease lists is owned by it alone, and is in a collection. -/
structure SnapshotContents.OwnsKeys (d : SnapshotContents) : Prop where
  owned : ∀ ref id, (rebuildLeases d.leases).2[ref]? = some id ↔
    ((rebuildLeases d.leases).1[id]?).any (fun held : LeaseState => held.keys.contains ref) = true
  placed : ∀ ref : KeyRef, (rebuildLeases d.leases).2[ref]? ≠ none → ref.collection ∈ d.collections

/-- An entry that keeps a store steady. -/
structure PlainEntry (env : Env) (s : Store) (e : Entry) : Prop where
  operations : ∀ cmd, e.cmd = some cmd → ∀ o ∈ cmd.operations, o.Plain
  grants : ∀ o, e.cmd = some (.single o) → o.op = .leaseGrant → e.index ∉ s.leases
  imports : ∀ d, s.imports env e = some d → d.OwnsKeys

section

variable (henv : env.Encodes codec)

include henv

theorem Operation.Plain.step {o : Operation} (h : o.Plain) (hkey : o.onKey = true) (x : Session) :
    (o.step env x).Plain := by
  obtain ⟨hname, hvalue⟩ := h hkey
  refine ⟨hname, fun hput => ?_⟩
  unfold Operation.step at hput
  cases hverdict : verdict env (x.openCollection o.ref.collection).store o with
  | error err => simp [hverdict, Except.toOption] at hput
  | ok res =>
    obtain ⟨effect, resp⟩ := res
    have heffect : effect = .put [] := by simpa [hverdict, Except.toOption] using hput
    rcases (verdict_ok hverdict).written [] heffect with ⟨hop, hnil⟩ | ⟨named, fn, current, resp', hn, hf, hres⟩
    · exact hvalue hop hnil.symm
    · exact henv.mutations _ _ _ _ _ _ _ _ hn hf hres rfl

theorem Store.Steady.replaceBy {data : List UInt8} {d : SnapshotContents}
    (hd : env.decodeSnapshot data = .ok d) (howns : d.OwnsKeys) (rev : Nat) (s : Store) :
    (s.replaceBy rev d).Steady := by
  obtain ⟨ts, hts, hdecode⟩ := henv.backups data d hd
  have hreadable := decodeSnapshot_readable hts hdecode
  refine ⟨⟨hreadable.named, fun r => hreadable.valued r.collection r.key, ?_, howns.owned⟩, howns.placed⟩
  refine (counted_iff _).mpr ?_
  unfold Store.replaceBy
  dsimp only
  rw [recount_eq]
  exact ⟨rfl, rfl⟩

/-- **A plain entry keeps a store steady.** -/
theorem steady_applyEntry (h : s.Steady) {e : Entry} (he : PlainEntry env s e) :
    (s.applyEntry env e).1.Steady := by
  refine applyEntry_rule (P := fun s' _ => s'.Steady) env s e h fun s' hout => ?_
  have h₀ : Store.Steady { s with pendingEvents := [] } := h.congr rfl rfl rfl fun _ => rfl
  suffices hsteady : s'.Steady from hsteady.congr rfl rfl rfl fun _ => rfl
  cases hout with
  | steps hx hallowed hops =>
    refine Store.Steady.steps (hx ▸ h₀) e.index (fun p hp => ?_) hallowed
    obtain ⟨cmd, hcmd, o, ho, hkey, x', rfl⟩ := hops p hp
    exact (he.operations cmd hcmd o ho).step henv hkey x'
  | rolledBack cmds => exact h₀.rolledBack env e.index cmds
  | staged => exact h₀.congr rfl rfl rfl fun _ => rfl
  | replaced hd himports => exact Store.Steady.replaceBy henv hd (he.imports _ himports) e.index _
  | lease hcmd => exact h₀.leaseCommand e.index _ (he.grants _ hcmd)

end

/-- What narrows a scan; an empty text or 0 narrows nothing. -/
structure ScanOptions where
  keyPrefix : String
  after : String
  limit : Nat

namespace Store

def scanKeys (s : Store) (c : Name) (opts : ScanOptions) : List Name × Name :=
  match s.collections[c]? with
  | none => ([], "")
  | some items =>
    let keys := items.keys.filter fun key =>
      (opts.keyPrefix == "" || opts.keyPrefix.isPrefixOf key) && (opts.after == "" || decide (opts.after < key))
    if 0 < opts.limit ∧ opts.limit < keys.length then
      (keys.take opts.limit, (keys.take opts.limit).getLastD "")
    else (keys, "")

def scan (s : Store) (c : Name) (opts : ScanOptions) : List (Name × Value × Nat) × Name :=
  let (keys, next) := s.scanKeys c opts
  (keys.map fun key => (key, (s.valueAt ⟨c, key⟩).getD [], (s.revAt ⟨c, key⟩).getD 0), next)

def readRev (s : Store) (ref : KeyRef) : Option (Value × Nat) :=
  (s.valueAt ref).map fun value => (value, (s.revAt ref).getD 0)

def leaseOf (s : Store) (ref : KeyRef) : Nat := s.keyLeases[ref]?.getD 0

end Store

/-- Everything a client can see of a store. -/
structure View where
  readRev : KeyRef → Option (Value × Nat)
  scan : Name → ScanOptions → List (Name × Value × Nat) × Name
  revision : Nat
  leases : List LeaseSnapshot
  leaseOf : KeyRef → Nat
  importing : Option ImportState
  stateBytes : Int
  keyCount : Int
  snapshot : List (Token Leaf)

def Store.view (s : Store) : View :=
  ⟨s.readRev, s.scan, s.revision, s.leaseSnapshot, s.leaseOf, s.importing, s.stateBytes, s.keyCount, s.snapshot⟩

/-- What a store answers and announces while it applies entries, and what it becomes. -/
def Store.runFrom (env : Env) (s : Store) : List Entry →
    Store × List (List ChangeEvent × Except StoreError Response)
  | [] => (s, [])
  | e :: es =>
    let (s, answer) := s.applyEntry env e
    let (s, answers) := s.runFrom env es
    (s, answer :: answers)

/-- No entries make a difference between two stores. -/
def Indistinguishable (env : Env) (s s' : Store) : Prop :=
  ∀ es, (s'.runFrom env es).2 = (s.runFrom env es).2 ∧ (s'.runFrom env es).1.view = (s.runFrom env es).1.view

/-- **A replica that restores a snapshot** cannot be told apart from one that applied the
entries. -/
def ComesBack (env : Env) (codec : Codec) (es : List Entry) : Prop :=
  ∀ s₀ : Store, ∃ s', s₀.restore codec (Store.after env es).snapshot = .ok s' ∧
    Indistinguishable env (Store.after env es) s'

theorem indistinguishable_pendingEvents (env : Env) (s : Store) (evs : List ChangeEvent) :
    Indistinguishable env s { s with pendingEvents := evs } := by
  intro es
  induction es generalizing s evs with
  | nil => exact ⟨rfl, rfl⟩
  | cons e es ih =>
    unfold Store.runFrom
    cases hcmd : e.cmd with
    | some cmd =>
      have hsame : ({ s with pendingEvents := evs } : Store).applyEntry env e = s.applyEntry env e := by
        unfold Store.applyEntry
        rw [hcmd]
      rw [hsame]
      exact ⟨rfl, rfl⟩
    | none =>
      have hsame : ∀ s : Store, s.applyEntry env e = (s, [], .error .decode) := by
        intro s
        unfold Store.applyEntry
        rw [hcmd]
      rw [hsame, hsame]
      obtain ⟨hanswers, hview⟩ := ih s evs
      exact ⟨congrArg (_ :: ·) hanswers, hview⟩

def PlainRun (env : Env) (es : List Entry) : Prop :=
  ∀ (n : Nat) (e : Entry), es[n]? = some e → PlainEntry env (Store.after env (es.take n)) e

theorem steady_empty : Store.empty.Steady := by
  refine ⟨⟨fun c hc => ?_, fun r hr => ?_, rfl, fun r id => ?_⟩, fun r hr => ?_⟩
  · simp [Store.empty] at hc
  · simp [Store.valueAt, Store.empty, Nested.lookup] at hr
  · simp [Store.hold, Store.empty]
  · simp [Store.empty] at hr

theorem steady_after (henv : env.Encodes codec) {es : List Entry} (h : PlainRun env es) (n : Nat) :
    (Store.after env (es.take n)).Steady := by
  induction n with
  | zero => exact steady_empty
  | succ n ih =>
    cases he : es[n]? with
    | some e =>
      rw [after_take_succ env he]
      exact steady_applyEntry henv ih (h n e he)
    | none =>
      rw [List.take_add_one, he, Option.toList_none, List.append_nil]
      exact ih

/-- **A restored replica cannot be told apart**, when every entry before the snapshot was plain. -/
theorem comesBack_of_plain {env : Env} {codec : Codec} (henv : env.Encodes codec) {es : List Entry}
    (h : PlainRun env es) : ComesBack env codec es := by
  intro s₀
  have hsteady := steady_after henv h es.length
  rw [List.take_length] at hsteady
  exact ⟨_, Store.restore_snapshot codec hsteady.toRestorable s₀,
    indistinguishable_pendingEvents env _ s₀.pendingEvents⟩

def strictCodec : Codec where
  counts := fun _ => .error "json: cannot unmarshal into Go value of type map"
  staged := fun _ => .error "json: cannot unmarshal into Go value of type easyraft.importSnapshot"

def withoutValue : List Entry :=
  [⟨1, some (.batch [.single (.on .upsert ⟨"jobs", "a"⟩ [] "")])⟩]

def reservedName : List Entry :=
  [⟨1, some (.batch [.single (.on .upsert ⟨snapshotRevisionKey, "a"⟩ [0x31] "")])⟩]

/-- The value comes back as `null`, and with it another size; and the other snapshot cannot be read. -/
theorem restored_differs :
    ¬ ComesBack jobs strictCodec withoutValue ∧
      ((Store.after jobs withoutValue).readRev ⟨"jobs", "a"⟩ = some ([], 1) ∧
        (Store.after jobs withoutValue).stateBytes = 1) ∧
      ((Store.empty.restore strictCodec (Store.after jobs withoutValue).snapshot).toOption.map fun s =>
        (s.readRev ⟨"jobs", "a"⟩, s.stateBytes)) = some (some (nullText, 1), 5) ∧
    ¬ ComesBack jobs strictCodec reservedName ∧
      (Store.empty.restore strictCodec (Store.after jobs reservedName).snapshot).toOption = none := by
  have hbefore : (Store.after jobs withoutValue).readRev ⟨"jobs", "a"⟩ = some ([], 1) ∧
      (Store.after jobs withoutValue).stateBytes = 1 := by decide +kernel
  have hafter : ((Store.empty.restore strictCodec (Store.after jobs withoutValue).snapshot).toOption.map fun s =>
      (s.readRev ⟨"jobs", "a"⟩, s.stateBytes)) = some (some (nullText, 1), 5) := by decide +kernel
  have hfails : (Store.empty.restore strictCodec (Store.after jobs reservedName).snapshot).toOption = none := by
    decide +kernel
  refine ⟨fun h => ?_, hbefore, hafter, fun h => ?_, hfails⟩
  · obtain ⟨s', hs', hsame⟩ := h .empty
    have hbytes : s'.stateBytes = (Store.after jobs withoutValue).stateBytes :=
      congrArg View.stateBytes (hsame []).2
    rw [hs'] at hafter
    have hfive : s'.stateBytes = 5 := congrArg Prod.snd (Option.some.inj hafter)
    rw [hfive, hbefore.2] at hbytes
    exact absurd hbytes (by decide)
  · obtain ⟨s', hs', -⟩ := h .empty
    rw [hs'] at hfails
    cases hfails

def leasedJob : List Entry :=
  [⟨1, some (.single { Operation.on .leaseGrant ⟨"", ""⟩ [] "" with leaseTTLMillis := 1000 })⟩,
    ⟨2, some (.single { Operation.on .upsert ⟨"jobs", "a"⟩ [0x31] "" with lease := 1 })⟩,
    ⟨3, some (.batch [.single { Operation.on .mutate ⟨"jobs", "a"⟩ [] "run" with lease := 1 }])⟩]

theorem jobs_encodes : jobs.Encodes strictCodec := by
  refine ⟨fun data d hd => (by cases hd), ?_⟩
  intro c named name fn current args value resp hc hname hfn
  unfold jobs at hc
  dsimp only at hc
  split_ifs at hc
  cases hc
  dsimp only at hname
  split_ifs at hname
  cases hname
  obtain ⟨rfl, -⟩ := Prod.mk.inj (Except.ok.inj hfn)
  simp

theorem leasedJob_comesBack : ComesBack jobs strictCodec leasedJob := by
  refine comesBack_of_plain jobs_encodes fun n e he => ?_
  match n, he with
  | 0, he =>
    cases he
    refine ⟨fun cmd hcmd => ?_, fun o ho _ => ?_, fun d hd => by cases hd⟩
    · cases hcmd
      decide
    · decide +kernel
  | 1, he =>
    cases he
    refine ⟨fun cmd hcmd => ?_, fun o ho hop => ?_, fun d hd => by cases hd⟩
    · cases hcmd
      decide
    · obtain rfl := Command.single.inj (Option.some.inj ho)
      cases hop
  | 2, he =>
    cases he
    refine ⟨fun cmd hcmd => ?_, fun o ho _ => (by cases ho), fun d hd => by cases hd⟩
    cases hcmd
    decide

end Raft.Easyraft
