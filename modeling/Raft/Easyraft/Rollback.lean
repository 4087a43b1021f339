import Raft.Easyraft.Keys

/-!
# Playing back the journal

A batch writes keys, and its journal puts each of them back to what it was before the write,
the last one first.  Seen key by key, every key goes through a few states and returns.  Values
always return.  A revision does when it was on record exactly for the keys that are there, since
the journal notes a missing one as 0 and takes one off with its key.  The lease side returns when
the owner is a lease that lists the key, and no other lease the batch moved the key to does.
-/

namespace Raft.Easyraft

open Std

/-! ## The lease side of one key -/

namespace Hold

/-- A key is moved onto one lease after the other, and back again. -/
def backAgain (live : Nat → Bool) : List Nat → Hold → Hold
  | [], h => h
  | lease :: leases, h => (backAgain live leases (h.attach live lease)).attach live (h.owner.getD 0)

/-- The moves can be taken back. -/
def TakesBack (live : Nat → Bool) (leases : List Nat) (h : Hold) : Prop :=
  leases = [] ∨
    match h.owner with
    | none => ∀ l ∈ leases, l ≠ 0 → h.listed l = false
    | some 0 => ∀ l ∈ leases, l = 0
    | some p => live p = true ∧ h.listed p = true ∧ ∀ l ∈ leases, l ≠ 0 → l ≠ p → h.listed l = false

/-- The key is on no lease, or on one that is alive and lists it. -/
def Settled (live : Nat → Bool) (h : Hold) : Prop :=
  ∀ p, h.owner = some p → p ≠ 0 ∧ live p = true ∧ h.listed p = true

variable {leases : List Nat} {live : Nat → Bool} {h : Hold} {l p : Nat}

theorem attach_eq (hl : l = 0 ∨ live l = true) (ho : h.owner = some 0 → l ≠ 0) :
    h.attach live l = ⟨if l = 0 then none else some l,
      fun id => h.listed id && h.owner != some id || id == l && l != 0⟩ := by
  unfold attach detachUnless
  cases hown : h.owner <;> refine Hold.ext ?_ (funext fun id => ?_) <;> grind

theorem settled_attach (hl : l = 0 ∨ live l = true) (ho : h.owner = some 0 → l ≠ 0) :
    (h.attach live l).Settled live := by
  rw [attach_eq hl ho, Settled]
  grind

theorem backAgain_eq (hlive : ∀ l ∈ leases, l = 0 ∨ live l = true) (hs : h.Settled live) :
    backAgain live leases h =
      ⟨h.owner, fun id => h.owner == some id || h.listed id && !(leases.contains id && id != 0)⟩ := by
  induction leases generalizing h with
  | nil =>
    refine Hold.ext rfl (funext fun id => ?_)
    grind [backAgain, Settled]
  | cons l leases ih =>
    obtain ⟨hl, hrest⟩ := List.forall_mem_cons.mp hlive
    have ho : h.owner = some 0 → l ≠ 0 := fun ho => absurd rfl (hs 0 ho).1
    -- behind the first move the key is settled, and it is moved back from there
    rw [backAgain, ih hrest (settled_attach hl ho), attach_eq hl ho]
    unfold Settled at hs
    rw [attach_eq (by cases hown : h.owner <;> grind) (by grind)]
    cases hown : h.owner <;> refine Hold.ext ?_ (funext fun id => ?_) <;> grind

theorem backAgain_zero (hlive : ∀ l ∈ leases, l = 0 ∨ live l = true) (ho : h.owner = some 0) :
    if ∀ l ∈ leases, l = 0 then backAgain live leases h = h
    else (backAgain live leases h).owner = none := by
  induction leases with
  | nil => simp [backAgain]
  | cons l leases ih =>
    obtain ⟨hl, hrest⟩ := List.forall_mem_cons.mp hlive
    have ih := ih hrest
    have hstay : h.attach live 0 = h := by simp [attach, detachUnless, ho]
    rw [backAgain, ho, Option.getD_some]
    by_cases hzero : l = 0
    · subst hzero
      rw [hstay]
      simp only [List.forall_mem_cons, true_and]
      split_ifs at ih ⊢ with hall
      · rw [ih, hstay]
      · simp [attach, detachUnless, ih]
    · rw [if_neg (fun hall => hzero (hall l List.mem_cons_self)),
        backAgain_eq hrest (settled_attach hl fun _ => hzero)]
      simp [attach, detachUnless, ho, hzero, hl.resolve_left hzero]

theorem owner_backAgain_dead (hlive : ∀ l' ∈ l :: leases, l' = 0 ∨ live l' = true)
    (ho : h.owner = some p) (hp : p ≠ 0) (hdead : live p = false) :
    (backAgain live (l :: leases) h).owner = none := by
  obtain ⟨hl, hrest⟩ := List.forall_mem_cons.mp hlive
  have hs : (h.attach live l).Settled live :=
    settled_attach hl fun hzero => absurd (Option.some.inj (ho.symm.trans hzero)) hp
  rw [backAgain, ho, Option.getD_some, backAgain_eq hrest hs]
  unfold Settled at hs
  generalize h.attach live l = h' at hs
  unfold attach detachUnless
  cases hown : h'.owner <;> grind

theorem owner_backAgain_of_none (hlive : ∀ l ∈ leases, l = 0 ∨ live l = true) (ho : h.owner = none) :
    (backAgain live leases h).owner = none := by
  rw [backAgain_eq hlive (by simp [Settled, ho])]
  exact ho

theorem settled_backAgain_eq_iff (hlive : ∀ l ∈ leases, l = 0 ∨ live l = true)
    (hs : h.Settled live) :
    backAgain live leases h = h ↔ ∀ l ∈ leases, l ≠ 0 → h.owner ≠ some l → h.listed l = false := by
  rw [backAgain_eq hlive hs]
  constructor
  · intro heq l hl hne
    have hat := congrFun (congrArg Hold.listed heq) l
    grind
  · intro hall
    refine Hold.ext rfl (funext fun id => ?_)
    grind [Settled]

/-- **The lease side of a key returns** exactly when its moves can be taken back. -/
theorem backAgain_eq_iff (hlive : ∀ l ∈ leases, l = 0 ∨ live l = true) (h : Hold) :
    backAgain live leases h = h ↔ TakesBack live leases h := by
  cases leases with
  | nil => exact iff_of_true rfl (.inl rfl)
  | cons l rest =>
    unfold TakesBack
    rw [or_iff_right (by simp)]
    match ho : h.owner with
    | none =>
      rw [settled_backAgain_eq_iff hlive (by simp [Settled, ho]), ho]
      simp
    | some 0 =>
      have hback := backAgain_zero hlive ho
      split_ifs at hback with hall
      · exact iff_of_true hback hall
      · refine iff_of_false (fun heq => ?_) hall
        rw [heq, ho] at hback
        cases hback
    | some (p + 1) =>
      constructor
      · intro heq
        have hlp : live (p + 1) = true := by
          by_contra hdead
          have howner := owner_backAgain_dead hlive ho (by simp) (by simpa using hdead)
          rw [heq, ho] at howner
          cases howner
        have hlisted : h.listed (p + 1) = true := by
          rw [← heq, backAgain, ho, Option.getD_some]
          simp [attach, hlp]
        have hall := (settled_backAgain_eq_iff hlive (by grind [Settled])).mp heq
        exact ⟨hlp, hlisted, by grind⟩
      · rintro ⟨hlp, hlisted, hall⟩
        exact (settled_backAgain_eq_iff hlive (by grind [Settled])).mpr (by grind)

end Hold

/-! ## The steps of a batch -/

/-- One operation of a batch: its key, the lease it names, and what it did to the key, if it was not
refused. -/
structure Step where
  ref : KeyRef
  lease : Nat
  effect : Option Effect

def Step.move (p : Step) : Option Nat :=
  match p.effect with
  | some (.put _) => some p.lease
  | some .drop => some 0
  | _ => none

def movesAt (tr : List Step) (ref : KeyRef) : List Nat :=
  tr.filterMap fun p => if p.ref = ref then p.move else none

/-- The collections the steps name. -/
def visits (tr : List Step) (name : Name) : Prop := ∃ p ∈ tr, p.ref.collection = name

def Session.step (rev : Nat) (x : Session) (p : Step) : Session :=
  match p.effect with
  | none => x.openCollection p.ref.collection
  | some effect => (x.openCollection p.ref.collection).perform rev p.ref p.lease effect

/-- A step its operation would have made. -/
def Step.Allowed (s : Store) (p : Step) : Prop :=
  match p.effect with
  | some .drop => (s.valueAt p.ref).isSome = true
  | some (.put _) => p.lease = 0 ∨ s.live p.lease = true
  | _ => True

def AllowedAll (rev : Nat) : Session → List Step → Prop
  | _, [] => True
  | x, p :: tr => p.Allowed x.store ∧ AllowedAll rev (x.step rev p) tr

/-! ### One step and its undoing -/

structure Opened (s s' : Store) (name : Name) : Prop where
  valueAt : ∀ r, s'.valueAt r = s.valueAt r
  revAt : ∀ r, s'.revAt r = s.revAt r
  mem_collections : ∀ c, c ∈ s'.collections ↔ name = c ∨ c ∈ s.collections
  mem_revisions : ∀ c, c ∈ s'.revisions ↔ name = c ∨ c ∈ s.revisions
  eq : s' = { s with collections := s'.collections, revisions := s'.revisions }

theorem openCollection_spec (x : Session) (name : Name) :
    Opened x.store (x.openCollection name).store name where
  valueAt _ := Nested.lookup_opened ..
  revAt _ := Nested.lookup_opened ..
  mem_collections _ := Nested.mem_opened ..
  mem_revisions _ := Nested.mem_opened ..
  eq := rfl

theorem Opened.live {s s' : Store} {name : Name} (h : Opened s s' name) : s'.live = s.live := by
  rw [h.eq]
  rfl

variable {j : Journal} {x : Session} {m rev : Nat} {p : Step} {b o s : Store} {r : KeyRef}
  {cs : List Name} {tr : List Step}

theorem openCollection_undo (hx : x.undo = some j) (name : Name) :
    (x.openCollection name).undo = some { j with
      created := j.created ++ if name ∈ x.store.collections then [] else [name] } := by
  unfold Session.openCollection
  split_ifs
  · rw [hx, List.append_nil]
  · rw [hx]
    rfl

def Effect.outcome (rev : Nat) : Effect → Option Value × Option Nat
  | keep => (none, none)
  | put value => (some value, some rev)
  | drop => (none, none)

theorem perform_spec (rev : Nat) {effect : Effect} (heffect : p.effect = some effect)
    (hmove : p.move = some m) (hallowed : p.Allowed x.store)
    (hcoll : p.ref.collection ∈ x.store.collections) (hrevs : p.ref.collection ∈ x.store.revisions) :
    Store.KeyStep x.store (x.perform rev p.ref p.lease effect).store p.ref (effect.outcome rev).1
      (effect.outcome rev).2 ((x.store.hold p.ref).attach x.store.live m) := by
  unfold Step.move at hmove
  unfold Step.Allowed at hallowed
  rw [heffect] at hmove hallowed
  cases effect with
  | keep => cases hmove
  | put value =>
    cases hmove
    have hvalue := ((x.store.setKey_spec p.ref value).setRev rev).advance rev
    exact (hvalue.attach hcoll hrevs p.lease).congr rfl
  | drop =>
    cases hmove
    exact ((Store.dropKey_spec hallowed).attach hcoll hrevs 0).congr rfl

theorem undoEntry_spec {e : UndoEntry} (hcoll : e.ref.collection ∈ s.collections)
    (hrevs : e.ref.collection ∈ s.revisions) (hthere : e.previous = none → (s.valueAt e.ref).isSome) :
    Store.KeyStep s (Journal.undoEntry s e) e.ref e.previous (e.previous.map fun _ => e.previousRev)
      ((s.hold e.ref).attach s.live e.previousLease) := by
  unfold Journal.undoEntry
  rw [if_pos hcoll]
  cases hprev : e.previous with
  | none => exact (Store.dropKey_spec (hthere hprev)).attach hcoll hrevs _
  | some previous =>
    dsimp only
    have hset := s.setKey_spec e.ref previous
    rw [if_pos ((hset.mem_revisions hrevs _).mpr hrevs)]
    exact (hset.setRev e.previousRev).attach hcoll hrevs _

theorem dropKey_pendingEvents (s : Store) (ref : KeyRef) :
    (s.dropKey ref).pendingEvents = s.pendingEvents := by
  unfold Store.dropKey
  split <;> rfl

theorem undoEntry_pendingEvents (s : Store) (e : UndoEntry) :
    (Journal.undoEntry s e).pendingEvents = s.pendingEvents := by
  unfold Journal.undoEntry
  split_ifs
  · rw [(Store.attachKeyToLease_spec _ _ _).pendingEvents]
    cases e.previous with
    | none => exact dropKey_pendingEvents s e.ref
    | some previous =>
      dsimp only
      split_ifs <;> exact (s.setKey_spec e.ref previous).pendingEvents
  · rfl

/-! ### All the steps -/

/-- The store `b`, after the steps `tr` from `s` have been played back, with the collections `cs`
they created. -/
structure Restored (s b : Store) (tr : List Step) (cs : List Name) : Prop where
  valueAt : ∀ r, b.valueAt r = s.valueAt r
  revAt : ∀ r, b.revAt r =
    if movesAt tr r = [] then s.revAt r else (s.valueAt r).map fun _ => (s.revAt r).getD 0
  hold : ∀ r, b.hold r = Hold.backAgain s.live (movesAt tr r) (s.hold r)
  mem_collections : ∀ c, c ∈ b.collections ↔ c ∈ s.collections ∨ visits tr c
  mem_revisions : ∀ c, c ∈ b.revisions ↔ c ∈ s.revisions ∨ visits tr c
  created : ∀ c, c ∈ cs ↔ c ∉ s.collections ∧ visits tr c
  stateBytes : b.stateBytes = s.stateBytes
  keyCount : b.keyCount = s.keyCount
  leaseTimes : ∀ id, b.leaseTimes id = s.leaseTimes id
  importing : b.importing = s.importing
  pendingEvents : s.pendingEvents <+: b.pendingEvents

theorem visits_cons (p : Step) (tr : List Step) (c : Name) :
    visits (p :: tr) c ↔ p.ref.collection = c ∨ visits tr c := by
  simp [visits]

theorem movesAt_cons_of_none (h : p.move = none) (tr : List Step) (r : KeyRef) :
    movesAt (p :: tr) r = movesAt tr r := by
  rw [movesAt, List.filterMap_cons_none]
  · rfl
  · rw [h, ite_self]

theorem movesAt_cons_of_ne (h : p.ref ≠ r) (tr : List Step) :
    movesAt (p :: tr) r = movesAt tr r := by
  rw [movesAt, List.filterMap_cons_none]
  · rfl
  · rw [if_neg h]

theorem movesAt_cons_self (h : p.move = some m) (tr : List Step) :
    movesAt (p :: tr) p.ref = m :: movesAt tr p.ref := by
  rw [movesAt, List.filterMap_cons_some (b := m)]
  · rfl
  · rw [if_pos rfl, h]

theorem Restored.opened (hopen : Opened s o p.ref.collection) (h : Restored o b (p :: tr) cs) :
    Restored s b (p :: tr) ((if p.ref.collection ∈ s.collections then [] else [p.ref.collection]) ++ cs) := by
  have hname : visits (p :: tr) p.ref.collection := (visits_cons ..).mpr (.inl rfl)
  have hhold : ∀ r, o.hold r = s.hold r := by
    intro r
    rw [hopen.eq]
    rfl
  constructor
  case valueAt => exact fun r => (h.valueAt r).trans (hopen.valueAt r)
  case revAt => exact fun r => by rw [h.revAt, hopen.revAt, hopen.valueAt]
  case hold => exact fun r => by rw [h.hold, hopen.live, hhold]
  case mem_collections =>
    intro c
    rw [h.mem_collections, hopen.mem_collections]
    grind
  case mem_revisions =>
    intro c
    rw [h.mem_revisions, hopen.mem_revisions]
    grind
  case created =>
    intro c
    rw [List.mem_append, h.created, hopen.mem_collections]
    split_ifs with hin <;> grind
  case stateBytes => rw [h.stateBytes, hopen.eq]
  case keyCount => rw [h.keyCount, hopen.eq]
  case leaseTimes =>
    intro id
    rw [h.leaseTimes, hopen.eq]
    rfl
  case importing => rw [h.importing, hopen.eq]
  case pendingEvents =>
    have hevents : o.pendingEvents = s.pendingEvents := by rw [hopen.eq]
    rw [← hevents]
    exact h.pendingEvents

theorem Restored.skip (h : Restored o b tr cs) (hmove : p.move = none)
    (hin : p.ref.collection ∈ o.collections) (hin' : p.ref.collection ∈ o.revisions) :
    Restored o b (p :: tr) cs :=
  { h with
    revAt := fun r => by rw [movesAt_cons_of_none hmove, h.revAt]
    hold := fun r => by rw [movesAt_cons_of_none hmove, h.hold]
    mem_collections := fun c => by
      rw [h.mem_collections, visits_cons]
      grind
    mem_revisions := fun c => by
      rw [h.mem_revisions, visits_cons]
      grind
    created := fun c => by
      rw [h.created, visits_cons]
      grind }

theorem Restored.wrote {s₁ b₁ : Store} {value : Option Value} {rev : Option Nat}
    (h : Restored s₁ b₁ tr cs) (hmove : p.move = some m) (hin : p.ref.collection ∈ o.collections)
    (hin' : p.ref.collection ∈ o.revisions)
    (hdo : Store.KeyStep o s₁ p.ref value rev ((o.hold p.ref).attach o.live m))
    (hundo : Store.KeyStep b₁ b p.ref (o.valueAt p.ref)
      ((o.valueAt p.ref).map fun _ => (o.revAt p.ref).getD 0)
      ((b₁.hold p.ref).attach b₁.live ((o.hold p.ref).owner.getD 0)))
    (hevents : b.pendingEvents = b₁.pendingEvents) (hmore : o.pendingEvents <+: s₁.pendingEvents) :
    Restored o b (p :: tr) cs := by
  have hlive₁ : s₁.live = o.live := hdo.live
  have hlive : b₁.live = o.live := by
    funext id
    rw [Store.live_eq, Store.live_eq, h.leaseTimes, hdo.leaseTimes]
  constructor
  case valueAt =>
    intro r
    rw [hundo.valueAt]
    split_ifs with hr
    · rw [hr]
    · rw [h.valueAt, hdo.valueAt, if_neg hr]
  case revAt =>
    intro r
    rw [hundo.revAt]
    split_ifs with hr hnone hnone
    · subst hr
      rw [movesAt_cons_self hmove] at hnone
      cases hnone
    · rw [hr]
    · rw [movesAt_cons_of_ne hr] at hnone
      rw [h.revAt, if_pos hnone, hdo.revAt, if_neg hr]
    · rw [movesAt_cons_of_ne hr] at hnone
      rw [h.revAt, if_neg hnone, hdo.revAt, if_neg hr, hdo.valueAt, if_neg hr]
  case hold =>
    intro r
    rw [hundo.hold]
    split_ifs with hr
    · subst hr
      rw [movesAt_cons_self hmove, Hold.backAgain, h.hold, hlive, hlive₁, hdo.hold, if_pos rfl]
    · rw [movesAt_cons_of_ne hr, h.hold, hlive₁, hdo.hold, if_neg hr]
  case mem_collections =>
    intro c
    rw [hundo.mem_collections, h.mem_collections, hdo.mem_collections, visits_cons]
    grind
  case mem_revisions =>
    intro c
    rw [hundo.mem_revisions, h.mem_revisions, hdo.mem_revisions, visits_cons]
    grind
  case created =>
    intro c
    rw [h.created, hdo.mem_collections, visits_cons]
    grind
  case stateBytes =>
    -- what the undoing takes away is what the step has added
    rw [hundo.stateBytes, h.stateBytes, h.valueAt, hdo.valueAt, if_pos rfl, hdo.stateBytes]
    omega
  case keyCount =>
    rw [hundo.keyCount, h.keyCount, h.valueAt, hdo.valueAt, if_pos rfl, hdo.keyCount]
    omega
  case leaseTimes => exact fun id => by rw [hundo.leaseTimes, h.leaseTimes, hdo.leaseTimes]
  case importing => rw [hundo.importing, h.importing, hdo.importing]
  case pendingEvents =>
    rw [hevents]
    exact hmore.trans h.pendingEvents

def Step.events (p : Step) : List ChangeEvent :=
  match p.effect with
  | some (.put value) => [⟨p.ref, value, false⟩]
  | some .drop => [⟨p.ref, [], true⟩]
  | _ => []

theorem step_pendingEvents (rev : Nat) (x : Session) (p : Step) :
    (x.step rev p).store.pendingEvents = x.store.pendingEvents ++ p.events := by
  obtain ⟨ref, lease, effect⟩ := p
  match effect with
  | none | some .keep => exact (List.append_nil _).symm
  | some (.put value) =>
    change (Store.attachKeyToLease _ ref lease).pendingEvents ++ _ = _
    rw [(Store.attachKeyToLease_spec _ _ _).pendingEvents]
    exact congrArg (· ++ _) (Store.setKey_spec _ ref value).pendingEvents
  | some .drop =>
    change (Store.attachKeyToLease _ ref 0).pendingEvents ++ _ = _
    rw [(Store.attachKeyToLease_spec _ _ _).pendingEvents, dropKey_pendingEvents]
    rfl

theorem step_of_move_none (hmove : p.move = none) (rev : Nat) (x : Session) :
    x.step rev p = x.openCollection p.ref.collection := by
  obtain ⟨ref, lease, effect⟩ := p
  match effect, hmove with
  | none, _ | some .keep, _ => rfl

theorem step_undo (hmove : p.move = some m) (rev : Nat)
    (hx : (x.openCollection p.ref.collection).undo = some j) :
    (x.step rev p).undo = some (j.record (x.openCollection p.ref.collection).store p.ref) := by
  obtain ⟨ref, lease, effect⟩ := p
  match effect, hmove with
  | some (.put value), _ | some .drop, _ => exact congrArg (Option.map _) hx

theorem Step.Allowed.opened {c : Name} (h : p.Allowed s) (hopen : Opened s o c) : p.Allowed o := by
  obtain ⟨ref, lease, effect⟩ := p
  match effect, h with
  | none, _ | some .keep, _ => trivial
  | some (.put value), h =>
    change lease = 0 ∨ o.live lease = true
    rw [hopen.live]
    exact h
  | some .drop, h =>
    change (o.valueAt ref).isSome = true
    rw [hopen.valueAt]
    exact h

theorem step_spec (rev : Nat) (hmove : p.move = some m) (hp : p.Allowed x.store) :
    ∃ effect, p.effect = some effect ∧
      Store.KeyStep (x.openCollection p.ref.collection).store (x.step rev p).store p.ref
        (effect.outcome rev).1 (effect.outcome rev).2
        (((x.openCollection p.ref.collection).store.hold p.ref).attach
          (x.openCollection p.ref.collection).store.live m) := by
  have hopen := openCollection_spec x p.ref.collection
  cases heffect : p.effect with
  | none => simp [Step.move, heffect] at hmove
  | some effect =>
    refine ⟨effect, rfl, ?_⟩
    rw [Session.step, heffect]
    exact perform_spec rev heffect hmove (hp.opened hopen)
      ((hopen.mem_collections _).mpr (.inl rfl)) ((hopen.mem_revisions _).mpr (.inl rfl))

/-- **The steps of a batch, played back.** -/
theorem backFrom_spec (tr : List Step) (hx : x.undo = some j) (hallowed : AllowedAll rev x tr) :
    ∃ es cs, (tr.foldl (Session.step rev) x).undo =
        some { j with entries := j.entries ++ es, created := j.created ++ cs } ∧
      Restored x.store (es.foldr (fun e s => Journal.undoEntry s e)
        (tr.foldl (Session.step rev) x).store) tr cs := by
  induction tr generalizing x j with
  | nil =>
    refine ⟨[], [], by simp [hx], ?_⟩
    constructor <;> simp [movesAt, visits, Hold.backAgain]
  | cons p tr ih =>
    obtain ⟨hp, hrest⟩ := hallowed
    have hopen := openCollection_spec x p.ref.collection
    have hundo := openCollection_undo hx p.ref.collection
    have hin := (hopen.mem_collections p.ref.collection).mpr (.inl rfl)
    have hin' := (hopen.mem_revisions p.ref.collection).mpr (.inl rfl)
    rw [List.foldl_cons]
    cases hmove : p.move with
    | none =>
      rw [step_of_move_none hmove] at hrest ⊢
      obtain ⟨es, cs, hj, hback⟩ := ih hundo hrest
      refine ⟨es, (if p.ref.collection ∈ x.store.collections then [] else [p.ref.collection]) ++ cs,
        ?_, (hback.skip hmove hin hin').opened hopen⟩
      rw [hj, List.append_assoc]
    | some m =>
      have hj₁ := step_undo hmove rev hundo
      obtain ⟨es, cs, hj, hback⟩ := ih hj₁ hrest
      obtain ⟨effect, heffect, hdo⟩ := step_spec rev hmove hp
      have hp := hp.opened hopen
      set o := (x.openCollection p.ref.collection).store with ho
      set e : UndoEntry :=
        ⟨p.ref, o.valueAt p.ref, (o.revAt p.ref).getD 0, o.keyLeases[p.ref]?.getD 0⟩ with he
      set b := es.foldr (fun e s => Journal.undoEntry s e) (tr.foldl (Session.step rev) (x.step rev p)).store
        with hb
      have hcoll : e.ref.collection ∈ b.collections :=
        (hback.mem_collections _).mpr (.inl ((hdo.mem_collections _).mpr hin))
      have hrevs : e.ref.collection ∈ b.revisions :=
        (hback.mem_revisions _).mpr (.inl ((hdo.mem_revisions _).mpr hin'))
      -- a key that was not there has been written, and is there until it is put back
      have hthere : e.previous = none → (b.valueAt e.ref).isSome := by
        intro hnone
        rw [hback.valueAt, hdo.valueAt, if_pos rfl]
        unfold Step.Allowed at hp
        rw [heffect] at hp
        match effect, heffect, hp with
        | .keep, heffect, _ => simp [Step.move, heffect] at hmove
        | .put value, _, _ => rfl
        | .drop, _, hp =>
          rw [show o.valueAt p.ref = none from hnone] at hp
          cases hp
      have hmore : o.pendingEvents <+: (x.step rev p).store.pendingEvents := by
        rw [step_pendingEvents]
        exact List.prefix_append ..
      have hwrote := hback.wrote hmove hin hin' hdo (undoEntry_spec hcoll hrevs hthere)
        (undoEntry_pendingEvents b e) hmore
      refine ⟨e :: es, (if p.ref.collection ∈ x.store.collections then [] else [p.ref.collection]) ++ cs,
        ?_, hwrote.opened hopen⟩
      rw [hj]
      simp [Journal.record, he, ho]

/-! ### The collections a batch created -/

/-- The store `b` without the collections `cs`; the leases still list their keys. -/
structure Removed (b b' : Store) (cs : List Name) : Prop where
  mem_collections : ∀ c, c ∈ b'.collections ↔ c ∈ b.collections ∧ c ∉ cs
  mem_revisions : ∀ c, c ∈ b'.revisions ↔ c ∈ b.revisions ∧ c ∉ cs
  valueAt : ∀ r, b'.valueAt r = if r.collection ∈ cs then none else b.valueAt r
  revAt : ∀ r, b'.revAt r = if r.collection ∈ cs then none else b.revAt r
  owner : ∀ r : KeyRef, b'.keyLeases[r]? = if r.collection ∈ cs then none else b.keyLeases[r]?
  eq : b' = { b with
    collections := b'.collections, revisions := b'.revisions, keyLeases := b'.keyLeases }

theorem removeCreated_spec (b : Store) (name : Name) :
    Removed b (Journal.removeCreated b name) [name] where
  mem_collections c := by
    change c ∈ b.collections.erase name ↔ _
    grind
  mem_revisions c := by
    change c ∈ b.revisions.erase name ↔ _
    grind
  valueAt r := by
    change Nested.lookup (b.collections.erase name) r.collection r.key = _
    rw [Nested.lookup_erase]
    exact if_congr (by rw [List.mem_singleton, eq_comm]) rfl rfl
  revAt r := by
    change Nested.lookup (b.revisions.erase name) r.collection r.key = _
    rw [Nested.lookup_erase]
    exact if_congr (by rw [List.mem_singleton, eq_comm]) rfl rfl
  owner r := by
    change (b.keyLeases.filter fun ref _ => ref.collection ≠ name)[r]? = _
    rw [ExtTreeMap.getElem?_filter']
    by_cases h : r.collection = name <;> cases b.keyLeases[r]? <;> simp [h]
  eq := rfl

theorem Removed.trans {b' b'' : Store} {cs' : List Name} (h : Removed b b' cs)
    (h' : Removed b' b'' cs') : Removed b b'' (cs ++ cs') where
  mem_collections c := by
    rw [h'.mem_collections, h.mem_collections]
    grind
  mem_revisions c := by
    rw [h'.mem_revisions, h.mem_revisions]
    grind
  valueAt r := by
    rw [h'.valueAt, h.valueAt]
    grind
  revAt r := by
    rw [h'.revAt, h.revAt]
    grind
  owner r := by
    rw [h'.owner, h.owner]
    grind
  eq := by
    rw [h'.eq, h.eq]

theorem removeCreated_foldl (cs : List Name) (b : Store) :
    Removed b (cs.foldl Journal.removeCreated b) cs := by
  induction cs generalizing b with
  | nil => constructor <;> simp
  | cons name cs ih => exact (removeCreated_spec b name).trans (ih _)

/-! ### When a batch leaves no trace -/

/-- A collection the batch can open and close again. -/
def Store.TidyCollection (s : Store) (name : Name) : Prop :=
  if name ∈ s.collections then name ∈ s.revisions
  else name ∉ s.revisions ∧ ∀ r : KeyRef, r.collection = name → s.keyLeases[r]? = none

/-- A key whose changes can be taken back, when it was moved to these leases. -/
def Store.TidyKey (s : Store) (ref : KeyRef) (moves : List Nat) : Prop :=
  moves = [] ∨
    ((s.valueAt ref).isSome ↔ (s.revAt ref).isSome) ∧ Hold.TakesBack s.live moves (s.hold ref)

/-- The steps of a batch can all be taken back. -/
def Store.TidyFor (s : Store) (tr : List Step) : Prop :=
  (∀ name, visits tr name → s.TidyCollection name) ∧ ∀ ref, s.TidyKey ref (movesAt tr ref)

/-- What the operations on keys leave alone. -/
def Store.beside (s : Store) : (Nat → Option (UInt64 × Int64)) × Option ImportState :=
  (s.leaseTimes, s.importing)

theorem step_beside (hp : p.Allowed x.store) : (x.step rev p).store.beside = x.store.beside := by
  have hsame : (x.openCollection p.ref.collection).store.beside = x.store.beside := rfl
  cases hmove : p.move with
  | none => rw [step_of_move_none hmove, hsame]
  | some m =>
    obtain ⟨effect, -, hdo⟩ := step_spec rev hmove hp
    exact (Prod.ext (funext hdo.leaseTimes) hdo.importing).trans hsame

theorem live_of_movesAt (h : AllowedAll rev x tr) {l : Nat} (hl : l ∈ movesAt tr r) :
    l = 0 ∨ x.store.live l = true := by
  induction tr generalizing x with
  | nil => simp [movesAt] at hl
  | cons p tr ih =>
    obtain ⟨hp, hrest⟩ := h
    have hlive : (x.step rev p).store.live = x.store.live := by
      funext id
      rw [Store.live_eq, Store.live_eq]
      exact congrArg (fun beside => (beside.1 id).isSome) (step_beside hp)
    rw [movesAt, List.mem_filterMap] at hl
    obtain ⟨q, hq, hmove⟩ := hl
    rcases List.mem_cons.mp hq with rfl | hq
    · split_ifs at hmove
      obtain ⟨ref, lease, effect⟩ := q
      match effect, hp, hmove with
      | some (.put value), hp, hmove =>
        cases hmove
        exact hp
      | some .drop, _, hmove =>
        cases hmove
        exact .inl rfl
    · rw [← hlive]
      exact ih hrest (List.mem_filterMap.mpr ⟨q, hq, hmove⟩)

theorem valueAt_eq_none (h : r.collection ∉ s.collections) : s.valueAt r = none :=
  Nested.lookup_eq_none h

theorem revAt_eq_none (h : r.collection ∉ s.revisions) : s.revAt r = none :=
  Nested.lookup_eq_none h

theorem Restored.collections_eq (h : Restored s b tr cs) :
    (cs.foldl Journal.removeCreated b).collections = s.collections := by
  have hremoved := removeCreated_foldl cs b
  refine Nested.ext (fun c => ?_) fun c k => ?_
  · rw [hremoved.mem_collections, h.mem_collections, h.created]
    tauto
  · refine (hremoved.valueAt ⟨c, k⟩).trans ?_
    split_ifs with hc
    · exact (valueAt_eq_none (r := ⟨c, k⟩) ((h.created _).mp hc).1).symm
    · exact h.valueAt ⟨c, k⟩

/-- **A batch that is played back leaves no trace** exactly when all of its steps can be taken
back. -/
theorem Restored.untouched_iff (h : Restored s b tr cs)
    (hlive : ∀ r, ∀ l ∈ movesAt tr r, l = 0 ∨ s.live l = true) :
    { cs.foldl Journal.removeCreated b with
      revision := s.revision
      pendingEvents := b.pendingEvents.take s.pendingEvents.length } = s ↔ s.TidyFor tr := by
  have hremoved := removeCreated_foldl cs b
  set f := cs.foldl Journal.removeCreated b
  have hlisted : ∀ r, (f.hold r).listed = (b.hold r).listed := by
    intro r
    rw [hremoved.eq]
    rfl
  have hgone : ∀ r : KeyRef, r.collection ∈ cs → s.valueAt r = none := fun r hr =>
    valueAt_eq_none ((h.created _).mp hr).1
  constructor
  · intro heq
    have hrevs : f.revisions = s.revisions := (congrArg Store.revisions heq :)
    have howners : f.keyLeases = s.keyLeases := (congrArg Store.keyLeases heq :)
    have hleases : f.leases = s.leases := (congrArg Store.leases heq :)
    refine ⟨fun name hname => ?_, fun ref => ?_⟩
    · unfold Store.TidyCollection
      split_ifs with hin
      · rw [← hrevs, hremoved.mem_revisions, h.mem_revisions, h.created]
        exact ⟨.inr hname, fun hc => hc.1 hin⟩
      · have hcs := (h.created name).mpr ⟨hin, hname⟩
        refine ⟨fun hrev => ?_, fun r hr => ?_⟩
        · rw [← hrevs, hremoved.mem_revisions] at hrev
          exact hrev.2 hcs
        · rw [← howners, hremoved.owner, if_pos (hr ▸ hcs)]
    · by_cases hmoves : movesAt tr ref = []
      · exact .inl hmoves
      · refine .inr ⟨?_, ?_⟩
        · have hrev : f.revAt ref = s.revAt ref := by rw [Store.revAt, hrevs]; rfl
          rw [hremoved.revAt, h.revAt, if_neg hmoves] at hrev
          rw [← hrev]
          split_ifs with hc
          · rw [hgone ref hc]
            rfl
          · rw [Option.isSome_map]
        · -- the lease side has returned, even when the collection was removed
          refine (Hold.backAgain_eq_iff (hlive ref) _).mp ?_
          rw [← h.hold]
          have howner : (if ref.collection ∈ cs then none else b.keyLeases[ref]?) = s.keyLeases[ref]? := by
            rw [← hremoved.owner, howners]
          refine Hold.ext ?_ ?_
          · split_ifs at howner with hc
            · rw [h.hold]
              exact (Hold.owner_backAgain_of_none (hlive ref) howner.symm).trans howner
            · exact howner
          · rw [← hlisted]
            funext id
            change (f.leases[id]?).any _ = (s.leases[id]?).any _
            rw [hleases]
  · rintro ⟨hcollections, hkeys⟩
    have hclosed : ∀ c ∈ cs,
        c ∉ s.revisions ∧ ∀ r : KeyRef, r.collection = c → s.keyLeases[r]? = none := by
      intro c hc
      obtain ⟨hno, hvisits⟩ := (h.created c).mp hc
      have htidy := hcollections c hvisits
      rwa [Store.TidyCollection, if_neg hno] at htidy
    have hback : ∀ r, b.hold r = s.hold r := by
      intro r
      rw [h.hold]
      refine (Hold.backAgain_eq_iff (hlive r) _).mpr ?_
      rcases hkeys r with hnone | ⟨-, htakes⟩
      · rw [hnone]
        exact .inl rfl
      · exact htakes
    refine Store.ext h.collections_eq ?_ rfl ?_ ?_ ?_ ?_ ?_ ?_
    · refine Nested.ext (fun c => ?_) fun c k => ?_
      · have htidy := hcollections c
        unfold Store.TidyCollection at htidy
        rw [hremoved.mem_revisions, h.mem_revisions, h.created]
        split_ifs at htidy with hin <;> tauto
      · refine (hremoved.revAt ⟨c, k⟩).trans ?_
        split_ifs with hc
        · exact (revAt_eq_none (r := ⟨c, k⟩) (hclosed c hc).1).symm
        · rw [h.revAt]
          rcases hkeys ⟨c, k⟩ with hnone | ⟨hiff, -⟩
          · rw [if_pos hnone]
            rfl
          · split_ifs
            · rfl
            · change _ = s.revAt ⟨c, k⟩
              cases hv : s.valueAt ⟨c, k⟩ <;> cases hr : s.revAt ⟨c, k⟩ <;> simp_all
    · have hsame : f.leases = b.leases := by rw [hremoved.eq]
      rw [hsame]
      exact Store.leases_ext h.leaseTimes fun r => by rw [hback]
    · refine ExtTreeMap.ext_getElem? fun r => ?_
      refine (hremoved.owner r).trans ?_
      split_ifs with hc
      · exact ((hclosed _ hc).2 r rfl).symm
      · exact congrArg Hold.owner (hback r)
    · rw [hremoved.eq]
      exact h.stateBytes
    · rw [hremoved.eq]
      exact h.keyCount
    · rw [hremoved.eq]
      exact h.importing
    · exact (List.prefix_iff_eq_take.mp h.pendingEvents).symm

end Raft.Easyraft
