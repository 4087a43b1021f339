import Raft.ClientTable

/-!
# The client table as a list and a map

The table of the clients is a linked list in order of last write, and a map from every client to
its element of the list.  The map holds handles: an element keeps its handle when it moves to the
front, and a new element gets one that was never used.  List and map together represent a
`Recency`, and every call keeps it so.

## Main definitions

* `LinkedLRU`: the list, the map into it and the bound, with the calls under the names they have.
* `LinkedLRU.Linked`: the map holds the handles of the elements of the list, and no others.

## Main results

* `Represents.step`: a call on list and map is the call on the table they represent.
* `LinkedLRU.sound_run`: what holds of list and map after any calls.
-/

namespace Raft

structure LRUItem where
  handle : Nat
  id : ClientID
  ce : ClientEntry
  deriving DecidableEq, Repr

/-- The list from front to back, the map into it, and the bound, 0 for none.  The next new element
gets the handle `next`. -/
structure LinkedLRU where
  l : List LRUItem
  m : ClientID → Option Nat
  cap : Nat
  next : Nat

namespace LinkedLRU

open Function (update update_self update_of_ne)

def newClientLRU (maxSize : Nat) : LinkedLRU := ⟨[], fun _ => none, maxSize, 0⟩

section Calls

variable (c : LinkedLRU)

def get (id : ClientID) : Option ClientEntry :=
  (c.m id).bind fun h => (c.l.find? (·.handle = h)).map (·.ce)

def pushFront (id : ClientID) (ce : ClientEntry) : LinkedLRU :=
  { c with l := ⟨c.next, id, ce⟩ :: c.l, m := update c.m id (some c.next), next := c.next + 1 }

def pushBack (id : ClientID) (ce : ClientEntry) : LinkedLRU :=
  { c with l := c.l ++ [⟨c.next, id, ce⟩], m := update c.m id (some c.next), next := c.next + 1 }

/-- The element with this handle gets a new entry and moves to the front. -/
def moveToFront (h : Nat) (ce : ClientEntry) : LinkedLRU :=
  match c.l.find? (·.handle = h) with
  | some e => { c with l := { e with ce := ce } :: c.l.filter (·.handle ≠ h) }
  | none => c

/-- The last client is dropped, from the list and from the map. -/
def removeBack : Option ClientID × LinkedLRU :=
  match c.l.getLast? with
  | some e => (some e.id, { c with l := c.l.dropLast, m := update c.m e.id none })
  | none => (none, c)

/-- Writes an entry, and returns the client that was dropped to make room. -/
def put (id : ClientID) (ce : ClientEntry) : Option ClientID × LinkedLRU :=
  match c.m id with
  | some h => (none, c.moveToFront h ce)
  | none =>
    let c := c.pushFront id ce
    if 0 < c.cap ∧ c.cap < c.l.length then c.removeBack else (none, c)

/-- The loop of `setCap`; every round drops one of the `k` elements. -/
def evict : Nat → LinkedLRU → List ClientID × LinkedLRU
  | 0, c => ([], c)
  | k + 1, c =>
    if 0 < c.cap ∧ c.cap < c.l.length then
      (c.removeBack.1.toList ++ (evict k c.removeBack.2).1, (evict k c.removeBack.2).2)
    else ([], c)

/-- Changes the bound, and returns the clients that are dropped, oldest first. -/
def setCap (capacity : Nat) : List ClientID × LinkedLRU :=
  evict c.l.length { c with cap := capacity }

def records : List ClientRecord := c.l.map fun e => (e.id, e.ce)

def clients : List ClientID := c.l.map (·.id)

def load : LinkedLRU → List ClientRecord → LinkedLRU
  | c, [] => c
  | c, r :: rs =>
    if 0 < c.cap ∧ c.cap ≤ c.l.length then c
    else if (c.m r.1).isSome then load c rs
    else load (c.pushBack r.1 r.2) rs

def loadFrom (records : List ClientRecord) : LinkedLRU :=
  load { c with l := [], m := fun _ => none } records

end Calls

/-- The map holds the handles of the elements of the list, one for each client. -/
structure Linked (c : LinkedLRU) : Prop where
  handles : (c.l.map (·.handle)).Nodup
  ids : c.clients.Nodup
  map : ∀ id h, c.m id = some h ↔ ∃ e ∈ c.l, e.id = id ∧ e.handle = h
  unused : ∀ e ∈ c.l, e.handle < c.next

variable {c : LinkedLRU} {id : ClientID} {ce : ClientEntry}

theorem map_fst_records : c.records.map Prod.fst = c.clients := by
  simp [records, clients]

theorem length_records : c.records.length = c.l.length := List.length_map ..

theorem trim_records (h : ¬ (0 < c.cap ∧ c.cap < c.l.length)) :
    Recency.trim c.cap c.records = c.records := by
  unfold Recency.trim
  split_ifs with hpos
  · refine List.take_of_length_le ?_
    rw [length_records]
    omega
  · rfl

namespace Linked

variable (h : c.Linked)

include h

theorem isSome_map_iff : (c.m id).isSome = true ↔ id ∈ c.clients := by
  simp only [Option.isSome_iff_exists, h.map, clients, List.mem_map]
  grind

theorem find_handle {e : LRUItem} (he : e ∈ c.l) : c.l.find? (·.handle = e.handle) = some e := by
  obtain ⟨e', hfind⟩ := Option.isSome_iff_exists.mp
    (List.find?_isSome.mpr ⟨e, he, decide_eq_true rfl⟩ : (c.l.find? (·.handle = e.handle)).isSome)
  have hsame : e'.handle = e.handle := by simpa using List.find?_some hfind
  rw [hfind, List.inj_on_of_nodup_map h.handles (List.mem_of_find?_eq_some hfind) he hsame]

theorem get_eq_some_iff : c.get id = some ce ↔ (id, ce) ∈ c.records := by
  simp only [get, records, List.mem_map, Option.bind_eq_some_iff, Option.map_eq_some_iff, Prod.mk.injEq]
  constructor
  · rintro ⟨k, hk, e, hfind, rfl⟩
    obtain ⟨e', he', rfl, rfl⟩ := (h.map id k).mp hk
    rw [h.find_handle he'] at hfind
    cases hfind
    exact ⟨_, he', rfl, rfl⟩
  · rintro ⟨e, he, rfl, rfl⟩
    exact ⟨e.handle, (h.map _ _).mpr ⟨e, he, rfl, rfl⟩, e, h.find_handle he, rfl⟩

/-- A client that is not there gets an element of its own, wherever it is put. -/
theorem insert (hid : c.m id = none) {l : List LRUItem} (hl : l.Perm (⟨c.next, id, ce⟩ :: c.l)) :
    Linked ⟨l, update c.m id (some c.next), c.cap, c.next + 1⟩ where
  handles := by
    refine (hl.map _).nodup_iff.mpr (List.nodup_cons.mpr ⟨fun hmem => ?_, h.handles⟩)
    obtain ⟨e, he, heq : e.handle = c.next⟩ := List.mem_map.mp hmem
    have := h.unused e he
    omega
  ids := by
    refine (hl.map _).nodup_iff.mpr (List.nodup_cons.mpr ⟨fun hmem => ?_, h.ids⟩)
    simpa [hid] using h.isSome_map_iff.mpr hmem
  map id' k := by
    simp only [hl.mem_iff, List.mem_cons, exists_eq_or_imp]
    by_cases hsame : id' = id
    · subst hsame
      have hno := h.map id' k
      simp only [hid, reduceCtorEq, false_iff] at hno
      simp [update_self, hno]
    · rw [update_of_ne hsame, h.map]
      simp [Ne.symm hsame]
  unused e he := by
    rcases List.mem_cons.mp (hl.mem_iff.mp he) with rfl | he
    · exact Nat.lt_succ_self _
    · exact (h.unused e he).trans (Nat.lt_succ_self _)

theorem pushFront (hid : c.m id = none) (ce : ClientEntry) : (c.pushFront id ce).Linked :=
  h.insert hid (.refl _)

theorem pushBack (hid : c.m id = none) (ce : ClientEntry) : (c.pushBack id ce).Linked :=
  h.insert hid (List.perm_append_singleton ..)

theorem moveToFront {k : Nat} (hk : c.m id = some k) (ce : ClientEntry) :
    (c.moveToFront k ce).Linked ∧
      (c.moveToFront k ce).records = (id, ce) :: c.records.filter (·.1 ≠ id) := by
  obtain ⟨e, he, rfl, rfl⟩ := (h.map id k).mp hk
  have hfront : c.moveToFront e.handle ce =
      { c with l := { e with ce := ce } :: c.l.filter (·.handle ≠ e.handle) } := by
    rw [LinkedLRU.moveToFront, h.find_handle he]
  -- the others are those with another handle, and those with another client
  have hothers : c.l.filter (·.handle ≠ e.handle) = c.l.filter (·.id ≠ e.id) := by
    refine List.filter_congr fun e' he' => ?_
    have hsame : e'.handle = e.handle ↔ e'.id = e.id :=
      ⟨fun heq => congrArg _ (List.inj_on_of_nodup_map h.handles he' he heq),
        fun heq => congrArg _ (List.inj_on_of_nodup_map h.ids he' he heq)⟩
    simp [hsame]
  have hmem : ∀ e', e' ∈ c.l ↔ e' = e ∨ e' ∈ c.l.filter (·.handle ≠ e.handle) := by
    intro e'
    simp only [List.mem_filter, ne_eq, decide_not, Bool.not_eq_eq_eq_not, Bool.not_true,
      decide_eq_false_iff_not]
    constructor
    · intro he'
      by_cases heq : e'.handle = e.handle
      · exact .inl (List.inj_on_of_nodup_map h.handles he' he heq)
      · exact .inr ⟨he', heq⟩
    · rintro (rfl | ⟨he', -⟩)
      · exact he
      · exact he'
  rw [hfront]
  refine ⟨⟨?_, ?_, fun id' k => ?_, fun e' he' => ?_⟩, ?_⟩
  · refine List.nodup_cons.mpr ⟨?_, h.handles.sublist (List.filter_sublist.map _)⟩
    simp
  · refine List.nodup_cons.mpr ⟨?_, h.ids.sublist (List.filter_sublist.map _)⟩
    rw [hothers]
    simp
  · rw [h.map]
    simp only [hmem, List.mem_cons, exists_eq_or_imp]
  · rcases List.mem_cons.mp he' with rfl | he'
    · exact h.unused e he
    · exact h.unused e' (List.mem_of_mem_filter he')
  · simp only [records, List.map_cons, hothers, List.filter_map, Function.comp_def]

theorem removeBack {e : LRUItem} (hlast : c.l.getLast? = some e) :
    c.removeBack.1 = some e.id ∧ c.removeBack.2.Linked ∧ c.removeBack.2.l = c.l.dropLast ∧
      c.removeBack.2.cap = c.cap ∧ c.l = c.l.dropLast ++ [e] := by
  obtain ⟨init, hl⟩ := List.getLast?_eq_some_iff.mp hlast
  have hdrop : c.l.dropLast = init := by rw [hl, List.dropLast_concat]
  have hback : c.removeBack = (some e.id, { c with l := c.l.dropLast, m := update c.m e.id none }) := by
    rw [LinkedLRU.removeBack, hlast]
  rw [hback]
  refine ⟨rfl, ⟨h.handles.sublist ((List.dropLast_sublist _).map _),
    h.ids.sublist ((List.dropLast_sublist _).map _), fun id k => ?_,
    fun e' he' => h.unused e' (List.mem_of_mem_dropLast he')⟩, rfl, rfl, by rw [hdrop, hl]⟩
  have hids := h.ids
  rw [clients, hl, List.map_append, List.nodup_append] at hids
  simp only [hdrop]
  by_cases hsame : id = e.id
  · subst hsame
    simp only [update_self, reduceCtorEq, false_iff, not_exists, not_and]
    exact fun e' he' hid => absurd hid (hids.2.2 _ (List.mem_map_of_mem he') _ (by simp))
  · rw [update_of_ne hsame, h.map, hl]
    simp only [List.mem_append, List.mem_singleton, or_and_right, exists_or, exists_eq_left]
    simp [Ne.symm hsame]

/-- **The loop of `setCap`** leaves the clients written last, and returns the others. -/
theorem evict {k : Nat} (hk : c.l.length ≤ c.cap + k) :
    (evict k c).2.Linked ∧ (evict k c).2.cap = c.cap ∧
      (evict k c).2.records = Recency.trim c.cap c.records ∧
      (evict k c).2.clients ++ (evict k c).1.reverse = c.clients := by
  induction k generalizing c with
  | zero =>
    have hfits : ¬ (0 < c.cap ∧ c.cap < c.l.length) := by omega
    exact ⟨h, rfl, (trim_records hfits).symm, List.append_nil _⟩
  | succ k ih =>
    unfold LinkedLRU.evict
    split_ifs with hover
    · obtain ⟨e, hlast⟩ := Option.isSome_iff_exists.mp
        (List.getLast?_isSome.mpr (List.ne_nil_of_length_pos (by omega : 0 < c.l.length)))
      obtain ⟨hid, hlinked, hl, hcap, happend⟩ := h.removeBack hlast
      have hlen : c.removeBack.2.l.length + 1 = c.l.length := by
        rw [hl, List.length_dropLast]
        omega
      obtain ⟨hl', hcap', hrec, hclients⟩ := ih hlinked (by omega)
      refine ⟨hl', hcap'.trans hcap, ?_, ?_⟩
      · have hpos : 0 < c.cap := hover.1
        rw [hrec, hcap]
        simp only [Recency.trim, if_pos hpos, records, hl, ← List.map_take]
        rw [List.dropLast_eq_take, List.take_take, min_eq_left (by omega)]
      · rw [hid, Option.toList_some, List.singleton_append, List.reverse_cons, ← List.append_assoc,
          hclients, clients, clients, hl, happend]
        simp
    · exact ⟨h, rfl, (trim_records hover).symm, List.append_nil _⟩

theorem load (rs : List ClientRecord) :
    (load c rs).Linked ∧ (load c rs).cap = c.cap ∧
      (load c rs).records = Recency.loadItems c.cap c.records rs := by
  induction rs generalizing c with
  | nil => exact ⟨h, rfl, rfl⟩
  | cons r rs ih =>
    rw [LinkedLRU.load, Recency.loadItems_cons, length_records, map_fst_records]
    simp only [← h.isSome_map_iff]
    split_ifs with hfull hdup
    · exact ⟨h, rfl, rfl⟩
    · exact ih h
    · obtain ⟨hlinked, hcap, hrec⟩ := ih (h.pushBack (by simpa using hdup) r.2)
      refine ⟨hlinked, hcap, hrec.trans ?_⟩
      simp [LinkedLRU.pushBack, records]

end Linked

theorem linked_new (maxSize : Nat) : (newClientLRU maxSize).Linked :=
  ⟨List.nodup_nil, List.nodup_nil, by simp [newClientLRU], by simp [newClientLRU]⟩

/-! ## The table that list and map represent -/

structure Represents (c : LinkedLRU) (t : ClientLRU) : Prop where
  linked : c.Linked
  records : c.records = t.items
  cap : c.cap = t.bound

inductive Call
  | get (id : ClientID)
  | put (id : ClientID) (ce : ClientEntry)
  | setCap (capacity : Nat)
  | loadFrom (records : List ClientRecord)

def step (c : LinkedLRU) : Call → LinkedLRU
  | .get _ => c
  | .put id ce => (c.put id ce).2
  | .setCap capacity => (c.setCap capacity).2
  | .loadFrom records => c.loadFrom records

def stepTable (t : ClientLRU) : Call → ClientLRU
  | .get _ => t
  | .put id ce => t.put id ce
  | .setCap capacity => t.setCap capacity
  | .loadFrom records => t.loadFrom records

/-- The clients in order of their last write; a loaded table counts as written from its end. -/
def written (ids : List ClientID) : Call → List ClientID
  | .put id _ => id :: ids.filter (· ≠ id)
  | .loadFrom records => (Recency.loadItems 0 [] records).map Prod.fst
  | .get _ | .setCap _ => ids

namespace Represents

variable {t : ClientLRU}

theorem clients (h : c.Represents t) : c.clients = t.items.map Prod.fst := by
  rw [← map_fst_records, h.records]

theorem get_eq (h : c.Represents t) : c.get id = t.get id := by
  refine Option.ext fun ce => ?_
  rw [h.linked.get_eq_some_iff, h.records]
  exact (t.get_eq_some_iff).symm

theorem put (h : c.Represents t) (id : ClientID) (ce : ClientEntry) :
    (c.put id ce).2.Represents (t.put id ce) ∧
      (c.put id ce).2.clients ++ (c.put id ce).1.toList = id :: c.clients.filter (· ≠ id) := by
  have hfilter : ((t.without id).map Prod.fst) = c.clients.filter (· ≠ id) := by
    rw [h.clients, Recency.without, List.filter_map]
    rfl
  have hitems : (t.put id ce).items = Recency.trim t.bound ((id, ce) :: t.without id) := rfl
  unfold LinkedLRU.put
  cases hm : c.m id with
  | some k =>
    obtain ⟨hlinked, hrec⟩ := h.linked.moveToFront hm ce
    have hthere : t.HasRoom id := .inl (by
      rw [← h.get_eq, Option.isSome_iff_exists]
      obtain ⟨e, he, rfl, -⟩ := (h.linked.map id k).mp hm
      exact ⟨e.ce, h.linked.get_eq_some_iff.mpr (List.mem_map_of_mem he)⟩)
    have hcap : (c.moveToFront k ce).cap = c.cap := by
      unfold LinkedLRU.moveToFront
      split <;> rfl
    rw [h.records] at hrec
    refine ⟨⟨hlinked, ?_, hcap.trans h.cap⟩, ?_⟩
    · rw [hitems, Recency.trim_of_hasRoom ce hthere, hrec]
      rfl
    · rw [Option.toList_none, List.append_nil, ← map_fst_records, hrec, List.map_cons, ← hfilter]
      rfl
  | none =>
    have hlinked := h.linked.pushFront hm ce
    have hrec : (c.pushFront id ce).records = (id, ce) :: t.items := by
      rw [← h.records]
      rfl
    have habsent : id ∉ c.clients := fun hmem => by
      simpa [hm] using h.linked.isSome_map_iff.mpr hmem
    have hall : c.clients.filter (· ≠ id) = c.clients :=
      List.filter_eq_self.mpr fun id' hid' => decide_eq_true (ne_of_mem_of_not_mem hid' habsent)
    have hwithout : t.without id = t.items := by
      refine List.filter_eq_self.mpr fun p hp => decide_eq_true fun hpid => habsent ?_
      rw [h.clients, ← hpid]
      exact List.mem_map_of_mem hp
    have hclients : (c.pushFront id ce).clients = id :: c.clients := rfl
    rw [hwithout] at hitems
    dsimp only
    split_ifs with hover
    · obtain ⟨e, hlast⟩ := Option.isSome_iff_exists.mp (List.getLast?_isSome.mpr
        (List.cons_ne_nil _ _ : (c.pushFront id ce).l ≠ []))
      obtain ⟨hid, hlinked', hl, hcap, happend⟩ := hlinked.removeBack hlast
      have hfull := t.fits (h.cap ▸ hover.1)
      have hlen : (c.pushFront id ce).l.length = t.items.length + 1 := by
        rw [← length_records, hrec, List.length_cons]
      have hbound : (c.pushFront id ce).cap = t.bound := h.cap
      refine ⟨⟨hlinked', ?_, hcap.trans h.cap⟩, ?_⟩
      · rw [hitems, Recency.trim, if_pos (h.cap ▸ hover.1), ← hrec, LinkedLRU.records, LinkedLRU.records,
          hl, List.map_dropLast, List.dropLast_eq_take, List.length_map]
        congr 1
        omega
      · rw [hid, hall, ← hclients, LinkedLRU.clients, LinkedLRU.clients, hl]
        conv_rhs => rw [happend]
        simp
    · have hbound : (c.pushFront id ce).cap = t.bound := h.cap
      refine ⟨⟨hlinked, ?_, h.cap⟩, ?_⟩
      · rw [hitems, ← hrec, ← hbound, trim_records hover]
      · rw [Option.toList_none, List.append_nil, hall, hclients]

theorem setCap (h : c.Represents t) (capacity : Nat) :
    (c.setCap capacity).2.Represents (t.setCap capacity) ∧
      (c.setCap capacity).2.clients ++ (c.setCap capacity).1.reverse = c.clients := by
  have hlinked : Linked { c with cap := capacity } :=
    ⟨h.linked.handles, h.linked.ids, h.linked.map, h.linked.unused⟩
  obtain ⟨hlinked', hcap, hrec, hclients⟩ := hlinked.evict (k := c.l.length) (Nat.le_add_left ..)
  refine ⟨⟨hlinked', hrec.trans ?_, hcap⟩, hclients⟩
  change Recency.trim capacity c.records = _
  rw [h.records]
  rfl

theorem loadFrom (h : c.Represents t) (rs : List ClientRecord) :
    (c.loadFrom rs).Represents (t.loadFrom rs) := by
  have hempty : Linked { c with l := [], m := fun _ => none } :=
    ⟨List.nodup_nil, List.nodup_nil, by simp, by simp⟩
  obtain ⟨hlinked, hcap, hrec⟩ := hempty.load rs
  refine ⟨hlinked, hrec.trans ?_, hcap.trans h.cap⟩
  change Recency.loadItems c.cap [] rs = _
  rw [h.cap]
  rfl

/-- **A call** on list and map is the call on the table they represent. -/
theorem step (h : c.Represents t) (call : Call) : (c.step call).Represents (stepTable t call) := by
  cases call with
  | get id => exact h
  | put id ce => exact (h.put id ce).1
  | setCap capacity => exact (h.setCap capacity).1
  | loadFrom records => exact h.loadFrom records

/-- The clients that are left are those written last. -/
theorem written (h : c.Represents t) {ids : List ClientID} (hids : c.clients <+: ids) (call : Call) :
    (c.step call).clients <+: written ids call := by
  rw [(h.step call).clients]
  rw [h.clients] at hids
  cases call with
  | get id => exact hids
  | put id ce =>
    refine ((Recency.trim_prefix ..).map Prod.fst).trans ?_
    have hfilter : ((id, ce) :: t.without id).map Prod.fst =
        id :: (t.items.map Prod.fst).filter (· ≠ id) := by
      rw [List.map_cons, Recency.without, List.filter_map]
      rfl
    rw [hfilter]
    exact List.prefix_cons_inj id |>.mpr (hids.filter _)
  | setCap capacity => exact ((Recency.trim_prefix ..).map Prod.fst).trans hids
  | loadFrom records => exact (Recency.loadItems_prefix ..).map Prod.fst

end Represents

/-- What list and map are after calls that have written the clients in this order. -/
structure Sound (c : LinkedLRU) (ids : List ClientID) : Prop where
  clients : ∀ id, (c.m id).isSome = true ↔ id ∈ c.clients
  nodup : c.clients.Nodup
  answers : ∀ id ce, c.get id = some ce ↔ (id, ce) ∈ c.records
  bounded : 0 < c.cap → c.l.length ≤ c.cap
  recent : c.clients <+: ids
  evicted : ∀ id ce,
    (c.put id ce).2.clients ++ (c.put id ce).1.toList = id :: c.clients.filter (· ≠ id)
  shrunk : ∀ capacity,
    (c.setCap capacity).2.clients ++ (c.setCap capacity).1.reverse = c.clients
  reloaded : ((newClientLRU c.cap).loadFrom c.records).records = c.records ∧
    ∀ id, ((newClientLRU c.cap).loadFrom c.records).get id = c.get id

def run (c : LinkedLRU) (calls : List Call) : LinkedLRU := calls.foldl step c

theorem represents_new (maxSize : Nat) : (newClientLRU maxSize).Represents (.empty maxSize) :=
  ⟨linked_new maxSize, rfl, rfl⟩

theorem Represents.run {t : ClientLRU} {ids : List ClientID} (h : c.Represents t)
    (hids : c.clients <+: ids) (calls : List Call) :
    ∃ t, (c.run calls).Represents t ∧ (c.run calls).clients <+: calls.foldl LinkedLRU.written ids := by
  induction calls generalizing c t ids with
  | nil => exact ⟨t, h, hids⟩
  | cons call calls ih => exact ih (h.step call) (h.written hids call)

/-- **List and map agree after any calls**: they hold the same clients, no more than the bound, in
order of last write; what is dropped was written longest ago; and loading what they hold gives it
again. -/
theorem sound_run (maxSize : Nat) (calls : List Call) :
    ((newClientLRU maxSize).run calls).Sound (calls.foldl written []) := by
  obtain ⟨t, h, hrecent⟩ := (represents_new maxSize).run (List.nil_prefix (l := [])) calls
  generalize (newClientLRU maxSize).run calls = c at h hrecent
  have hload : ((newClientLRU c.cap).loadFrom c.records).Represents t := by
    have hfrom := (represents_new t.bound).loadFrom t.items
    rw [Recency.loadFrom_items] at hfrom
    rw [h.cap, h.records]
    exact hfrom
  refine ⟨fun id => h.linked.isSome_map_iff, h.linked.ids, fun id ce => h.linked.get_eq_some_iff,
    fun hpos => ?_, hrecent, fun id ce => (h.put id ce).2, fun capacity => (h.setCap capacity).2,
    ⟨hload.records.trans h.records.symm, fun id => hload.get_eq.trans h.get_eq.symm⟩⟩
  rw [← length_records, h.records, h.cap]
  exact t.fits (h.cap ▸ hpos)

end LinkedLRU

end Raft
