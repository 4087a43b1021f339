import Raft.Easyraft.Store

/-!
# What the operations on a key do

The store is seen key by key: the value and the revision of a key, the lease that owns it, and
the leases that list it.  Every step of an operation changes what is seen at its own key, and
leaves every other key alone.
-/

namespace Raft.Easyraft

open Std

/-- The lease that owns a key, and the leases that list it. -/
@[ext] structure Hold where
  owner : Option Nat
  listed : Nat → Bool

namespace Hold

def detachUnless (h : Hold) (lease : Nat) : Hold :=
  match h.owner with
  | none => h
  | some previous => if previous = lease then h else ⟨none, fun id => h.listed id && id != previous⟩

def attach (live : Nat → Bool) (h : Hold) (lease : Nat) : Hold :=
  let h := h.detachUnless lease
  if lease = 0 ∨ live lease = false then h else ⟨some lease, fun id => h.listed id || id == lease⟩

end Hold

namespace Store

def live (s : Store) (id : Nat) : Bool := s.leases.contains id

def hold (s : Store) (ref : KeyRef) : Hold :=
  ⟨s.keyLeases[ref]?, fun id => (s.leases[id]?).any (·.keys.contains ref)⟩

def leaseTimes (s : Store) (id : Nat) : Option (UInt64 × Int64) :=
  s.leases[id]?.map fun held => (held.ttlMillis, held.expiresAtMillis)

theorem live_eq (s : Store) (id : Nat) : s.live id = (s.leaseTimes id).isSome := by
  rw [live, leaseTimes, Option.isSome_map, ExtTreeMap.contains_eq_isSome_getElem?]

variable {s s' : Store} {ref : KeyRef} {h : Hold} {rev : Option Nat} {value : Option Value}

theorem leases_ext (htimes : ∀ id, s'.leaseTimes id = s.leaseTimes id)
    (hlisted : ∀ ref, (s'.hold ref).listed = (s.hold ref).listed) : s'.leases = s.leases := by
  refine ExtTreeMap.ext_getElem? fun id => ?_
  have htime := htimes id
  have hkeys : ∀ ref, (s'.leases[id]?).any (·.keys.contains ref) =
      (s.leases[id]?).any (·.keys.contains ref) := fun ref => congrFun (hlisted ref) id
  unfold leaseTimes at htime
  cases h : s.leases[id]? with
  | none => simpa [h] using htime
  | some held =>
    cases h' : s'.leases[id]? with
    | none => simp [h, h'] at htime
    | some held' =>
      rw [h, h', Option.map_some, Option.map_some, Option.some.injEq, Prod.mk.injEq] at htime
      have hsame : held'.keys = held.keys :=
        ExtTreeSet.ext_mem fun ref => Bool.eq_iff_iff.mp (by simpa [h, h'] using hkeys ref)
      obtain ⟨ttl, expires, keys⟩ := held
      obtain ⟨rfl, rfl⟩ := htime
      obtain rfl := hsame
      rfl

def bytesOf (ref : KeyRef) : Option Value → Int
  | none => 0
  | some value => ref.key.utf8ByteSize + value.length

def countOf : Option Value → Int
  | none => 0
  | some _ => 1

/-- A step that changes the value and the revision of one key, and the highest revision of
all. -/
structure ValueStep (s s' : Store) (ref : KeyRef) (value : Option Value) (rev : Option Nat) : Prop where
  valueAt : ∀ r, s'.valueAt r = if ref = r then value else s.valueAt r
  revAt : ∀ r, s'.revAt r = if ref = r then rev else s.revAt r
  mem_collections : ref.collection ∈ s.collections → ∀ c, c ∈ s'.collections ↔ c ∈ s.collections
  mem_revisions : ref.collection ∈ s.revisions → ∀ c, c ∈ s'.revisions ↔ c ∈ s.revisions
  stateBytes : s'.stateBytes = s.stateBytes - bytesOf ref (s.valueAt ref) + bytesOf ref value
  keyCount : s'.keyCount = s.keyCount - countOf (s.valueAt ref) + countOf value
  leases : s'.leases = s.leases
  keyLeases : s'.keyLeases = s.keyLeases
  importing : s'.importing = s.importing
  pendingEvents : s'.pendingEvents = s.pendingEvents

theorem ref_eq_iff (ref r : KeyRef) :
    ref.collection = r.collection ∧ ref.key = r.key ↔ ref = r := by
  rw [KeyRef.mk.injEq]

theorem setKey_spec (s : Store) (ref : KeyRef) (value : Value) :
    ValueStep s (s.setKey ref value) ref (some value) (s.revAt ref) := by
  have hrev : ∀ r, s.revAt r = if ref = r then s.revAt ref else s.revAt r := by
    intro r
    split_ifs with h
    · rw [h]
    · rfl
  have hvalue : ∀ r, (s.collections.set ref.collection ref.key value).lookup r.collection r.key =
      if ref = r then some value else s.valueAt r := by
    intro r
    rw [Nested.lookup_set]
    exact if_congr (ref_eq_iff ref r) rfl rfl
  have hmem : ref.collection ∈ s.collections →
      ∀ c, c ∈ s.collections.set ref.collection ref.key value ↔ c ∈ s.collections := by
    intro hin c
    rw [Nested.mem_set]
    exact ⟨fun h => h.elim (fun h => h ▸ hin) id, .inr⟩
  unfold setKey
  cases hprev : s.valueAt ref with
  | none | some previous =>
    refine ⟨hvalue, hrev, hmem, fun _ _ => Iff.rfl, ?_, ?_, rfl, rfl, rfl, rfl⟩
    · simp only [bytesOf, hprev]
      omega
    · simp only [countOf, hprev]
      omega

theorem dropKey_of_none (h : s.valueAt ref = none) : s.dropKey ref = s := by
  rw [dropKey, h]

theorem dropKey_spec (h : (s.valueAt ref).isSome) : ValueStep s (s.dropKey ref) ref none none := by
  obtain ⟨previous, hprev⟩ := Option.isSome_iff_exists.mp h
  unfold dropKey
  rw [hprev]
  refine ⟨fun r => ?_, fun r => ?_, fun _ c => Nested.mem_remove .., fun _ c => Nested.mem_remove ..,
    ?_, ?_, rfl, rfl, rfl, rfl⟩
  · change (s.collections.remove ref.collection ref.key).lookup r.collection r.key = _
    rw [Nested.lookup_remove]
    exact if_congr (ref_eq_iff ref r) rfl rfl
  · change (s.revisions.remove ref.collection ref.key).lookup r.collection r.key = _
    rw [Nested.lookup_remove]
    exact if_congr (ref_eq_iff ref r) rfl rfl
  · simp only [bytesOf, hprev]
    omega
  · simp only [countOf, hprev]
    omega

theorem setRev_revAt (s : Store) (ref r : KeyRef) (rev : Nat) :
    revAt { s with revisions := s.revisions.set ref.collection ref.key rev } r =
      if ref = r then some rev else s.revAt r := by
  change (s.revisions.set ref.collection ref.key rev).lookup r.collection r.key = _
  rw [Nested.lookup_set]
  exact if_congr (ref_eq_iff ref r) rfl rfl

/-- A step that leaves everything but the lease side of the key `ref` alone. -/
structure LeaseStep (s s' : Store) (ref : KeyRef) (hold : Hold) : Prop where
  hold : ∀ r, s'.hold r = if ref = r then hold else s.hold r
  leaseTimes : ∀ id, s'.leaseTimes id = s.leaseTimes id
  collections : s'.collections = s.collections
  revisions : s'.revisions = s.revisions
  stateBytes : s'.stateBytes = s.stateBytes
  keyCount : s'.keyCount = s.keyCount
  importing : s'.importing = s.importing
  pendingEvents : s'.pendingEvents = s.pendingEvents
  revision : s'.revision = s.revision

theorem LeaseStep.refl (s : Store) (ref : KeyRef) : LeaseStep s s ref (s.hold ref) := by
  refine ⟨fun r => ?_, fun _ => rfl, rfl, rfl, rfl, rfl, rfl, rfl, rfl⟩
  split_ifs with h
  · rw [h]
  · rfl

theorem hold_eq (howner : ∀ r : KeyRef, s'.keyLeases[r]? = if ref = r then h.owner else s.keyLeases[r]?)
    (hlisted : ∀ r id, (s'.hold r).listed id = if ref = r then h.listed id else (s.hold r).listed id)
    (r : KeyRef) : s'.hold r = if ref = r then h else s.hold r := by
  refine Hold.ext ((howner r).trans ?_) (funext fun id => (hlisted r id).trans ?_) <;>
    split_ifs <;> rfl

theorem detachUnless_spec (s : Store) (ref : KeyRef) (lease : Nat) :
    LeaseStep s (s.detachUnless ref lease) ref ((s.hold ref).detachUnless lease) := by
  unfold detachUnless Hold.detachUnless
  change LeaseStep s _ ref (match s.keyLeases[ref]? with
    | none => s.hold ref
    | some previous => if previous = lease then s.hold ref
      else ⟨none, fun id => (s.hold ref).listed id && id != previous⟩)
  cases hprev : s.keyLeases[ref]? with
  | none => exact LeaseStep.refl s ref
  | some previous =>
    dsimp only
    split_ifs with heq
    · exact LeaseStep.refl s ref
    · refine ⟨hold_eq (fun r => ?_) fun r id => ?_, fun id => ?_, rfl, rfl, rfl, rfl, rfl, rfl, rfl⟩
      · grind
      · change ((s.leases.modify previous _)[id]?).any _ = _
        rw [ExtTreeMap.getElem?_modify, hold, hold]
        cases hid : s.leases[id]? <;> grind
      · change Option.map _ (s.leases.modify previous _)[id]? = Option.map _ s.leases[id]?
        rw [ExtTreeMap.getElem?_modify]
        cases hid : s.leases[id]? <;> grind

theorem LeaseStep.trans {s'' : Store} {h' : Hold} (h₁ : LeaseStep s s' ref h)
    (h₂ : LeaseStep s' s'' ref h') : LeaseStep s s'' ref h' where
  hold r := by
    rw [h₂.hold, h₁.hold]
    split_ifs <;> rfl
  leaseTimes id := (h₂.leaseTimes id).trans (h₁.leaseTimes id)
  collections := h₂.collections.trans h₁.collections
  revisions := h₂.revisions.trans h₁.revisions
  stateBytes := h₂.stateBytes.trans h₁.stateBytes
  keyCount := h₂.keyCount.trans h₁.keyCount
  importing := h₂.importing.trans h₁.importing
  pendingEvents := h₂.pendingEvents.trans h₁.pendingEvents
  revision := h₂.revision.trans h₁.revision

theorem LeaseStep.live (hs : LeaseStep s s' ref h) : s'.live = s.live := by
  funext id
  rw [live_eq, live_eq, hs.leaseTimes]

theorem list_spec {lease : Nat} {held : LeaseState} (hheld : s.leases[lease]? = some held)
    (ref : KeyRef) :
    LeaseStep s { s with
      leases := s.leases.insert lease { held with keys := held.keys.insert ref }
      keyLeases := s.keyLeases.insert ref lease } ref
      ⟨some lease, fun id => (s.hold ref).listed id || id == lease⟩ := by
  refine ⟨hold_eq (fun r => ?_) fun r id => ?_, fun id => ?_, rfl, rfl, rfl, rfl, rfl, rfl, rfl⟩
  · grind
  · change ((s.leases.insert lease _)[id]?).any _ = _
    rw [ExtTreeMap.getElem?_insert, hold, hold]
    cases hid : s.leases[id]? <;> grind
  · change Option.map _ (s.leases.insert lease _)[id]? = Option.map _ s.leases[id]?
    rw [ExtTreeMap.getElem?_insert]
    cases hid : s.leases[id]? <;> grind

theorem attachKeyToLease_spec (s : Store) (ref : KeyRef) (lease : Nat) :
    LeaseStep s (s.attachKeyToLease ref lease) ref ((s.hold ref).attach s.live lease) := by
  have hdetach := s.detachUnless_spec ref lease
  unfold attachKeyToLease Hold.attach
  have hlive : s.live lease = ((s.detachUnless ref lease).leases[lease]?).isSome := by
    rw [← hdetach.live, live, ExtTreeMap.contains_eq_isSome_getElem?]
  -- no lease, one that is gone, and one that is alive
  by_cases hzero : lease = 0
  · rw [if_pos hzero, if_pos (.inl hzero)]
    exact hdetach
  · rw [if_neg hzero]
    cases hheld : (s.detachUnless ref lease).leases[lease]? with
    | none =>
      rw [if_pos (.inr (by rw [hlive, hheld]; rfl))]
      exact hdetach
    | some =>
      rw [if_neg (by rw [hlive, hheld]; simp [hzero])]
      have hown : (s.detachUnless ref lease).hold ref = (s.hold ref).detachUnless lease := by
        rw [hdetach.hold, if_pos rfl]
      rw [← hown]
      exact hdetach.trans (list_spec hheld ref)

/-- A step that leaves everything but the key, the events and the highest revision alone. -/
structure KeyStep (s s' : Store) (ref : KeyRef) (value : Option Value) (rev : Option Nat)
    (hold : Hold) : Prop where
  valueAt : ∀ r, s'.valueAt r = if ref = r then value else s.valueAt r
  revAt : ∀ r, s'.revAt r = if ref = r then rev else s.revAt r
  hold : ∀ r, s'.hold r = if ref = r then hold else s.hold r
  mem_collections : ∀ c, c ∈ s'.collections ↔ c ∈ s.collections
  mem_revisions : ∀ c, c ∈ s'.revisions ↔ c ∈ s.revisions
  stateBytes : s'.stateBytes = s.stateBytes - bytesOf ref (s.valueAt ref) + bytesOf ref value
  keyCount : s'.keyCount = s.keyCount - countOf (s.valueAt ref) + countOf value
  leaseTimes : ∀ id, s'.leaseTimes id = s.leaseTimes id
  importing : s'.importing = s.importing

theorem KeyStep.live (hs : KeyStep s s' ref value rev h) : s'.live = s.live := by
  funext id
  rw [live_eq, live_eq, hs.leaseTimes]

theorem ValueStep.attach (h : ValueStep s s' ref value rev) (hcoll : ref.collection ∈ s.collections)
    (hrevs : ref.collection ∈ s.revisions) (lease : Nat) :
    KeyStep s (s'.attachKeyToLease ref lease) ref value rev ((s.hold ref).attach s.live lease) := by
  have hlease := s'.attachKeyToLease_spec ref lease
  have hhold : ∀ r, s'.hold r = s.hold r := fun r => by rw [Store.hold, Store.hold, h.leases, h.keyLeases]
  have hlive : s'.live = s.live := funext fun id => by rw [Store.live, Store.live, h.leases]
  constructor
  case valueAt => exact fun r => by rw [Store.valueAt, hlease.collections]; exact h.valueAt r
  case revAt => exact fun r => by rw [Store.revAt, hlease.revisions]; exact h.revAt r
  case hold => exact fun r => by rw [hlease.hold, hhold, hhold, hlive]
  case mem_collections => exact fun c => by rw [hlease.collections]; exact h.mem_collections hcoll c
  case mem_revisions => exact fun c => by rw [hlease.revisions]; exact h.mem_revisions hrevs c
  case stateBytes => rw [hlease.stateBytes, h.stateBytes]
  case keyCount => rw [hlease.keyCount, h.keyCount]
  case leaseTimes =>
    intro id
    rw [hlease.leaseTimes, Store.leaseTimes, Store.leaseTimes, h.leases]
  case importing => rw [hlease.importing, h.importing]

theorem ValueStep.setRev (h : ValueStep s s' ref value rev) (new : Nat) :
    ValueStep s { s' with revisions := s'.revisions.set ref.collection ref.key new } ref value
      (some new) :=
  { h with
    revAt := fun r => by
      rw [setRev_revAt, h.revAt]
      split_ifs <;> rfl
    mem_revisions := fun hin c => by
      rw [Nested.mem_set, h.mem_revisions hin]
      exact ⟨fun hc => hc.elim (fun heq => heq ▸ hin) id, .inr⟩ }

theorem ValueStep.advance (h : ValueStep s s' ref value rev) (new : Nat) :
    ValueStep s (s'.advance new) ref value rev :=
  { h with }

theorem KeyStep.congr {s'' : Store} (hs : KeyStep s s' ref value rev h) (heq : s'' = { s' with
      revision := s''.revision, pendingEvents := s''.pendingEvents }) :
    KeyStep s s'' ref value rev h := by
  rw [heq]
  exact { hs with }

end Store

end Raft.Easyraft
