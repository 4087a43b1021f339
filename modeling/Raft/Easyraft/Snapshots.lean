import Raft.Easyraft.Keys
import Raft.Entries
import Raft.Members

/-!
# Snapshots

A snapshot is a JSON object with a member for each collection, and beside them, under four names of
its own, the revisions, the highest of them, the leases and an import in progress.  It is written
piece by piece, in a fixed order, and read back member by member.

What is read back is what was written, but for three things.  A value that has no text is written as
`null`.  A collection under one of the four names is taken for what that name stands for.  And which
lease owns a key is not written: it is worked out from the keys the leases list.
-/

namespace Raft.Easyraft

open Std Token

/-! ## Writing a snapshot -/

def snapshotRevisionsKey : Name := "__easyraft_revisions__"

def snapshotRevisionKey : Name := "__easyraft_revision__"

def snapshotLeasesKey : Name := "__easyraft_leases__"

def snapshotImportKey : Name := "__easyraft_import__"

def isSnapshotKey (name : Name) : Bool :=
  name == snapshotRevisionsKey || name == snapshotRevisionKey || name == snapshotLeasesKey ||
    name == snapshotImportKey

def nullText : Value := [0x6e, 0x75, 0x6c, 0x6c]

/-- What is written in one piece. -/
inductive Leaf
  | num (n : Nat)
  | raw (text : Value)
  | leases (entries : List LeaseSnapshot)
  | staged (state : ImportState)
  deriving DecidableEq

/-- The lease table in a fixed order. -/
def Store.leaseSnapshot (s : Store) : List LeaseSnapshot :=
  s.leases.toList.map fun e => ⟨e.1, e.2.ttlMillis, e.2.expiresAtMillis, e.2.keys.toList⟩

def textOf (value : Value) : Value := if value = [] then nullText else value

def streamItems (items : ExtTreeMap Name Value) : List (Token Leaf) :=
  [obj] ++ separated (items.toList.map fun e => member e.1 [leaf (.raw (textOf e.2))]) ++ [close]

def streamRevisions (keys : ExtTreeMap Name Nat) : List (Token Leaf) :=
  [obj] ++ separated (keys.toList.map fun e => member e.1 [leaf (.num e.2)]) ++ [close]

def streamCollections (collections : Nested Name Name Value) (revisions : Nested Name Name Nat)
    (revision : Nat) (leases : List LeaseSnapshot) (staged : Option ImportState) : List (Token Leaf) :=
  [obj] ++ separated (collections.toList.map fun e => member e.1 (streamItems e.2)) ++
    (if collections.toList = [] then [] else [comma]) ++
    member snapshotRevisionsKey
      ([obj] ++ separated (revisions.toList.map fun e => member e.1 (streamRevisions e.2)) ++ [close]) ++
    [comma] ++ member snapshotRevisionKey [leaf (.num revision)] ++
    (if leases = [] then [] else comma :: member snapshotLeasesKey [leaf (.leases leases)]) ++
    (match staged with
      | none => []
      | some state => comma :: member snapshotImportKey [leaf (.staged state)]) ++
    [close]

def Store.snapshot (s : Store) : List (Token Leaf) :=
  streamCollections s.collections s.revisions s.revision s.leaseSnapshot s.importing

/-! ## Reading a snapshot -/

/-- How encoding/json reads the text of a value where an object of numbers or an import in progress
is expected. -/
structure Codec where
  counts : Value → Except String (List (Name × Nat))
  staged : List (Name × Value) → Except String ImportState

def readText : Reader Leaf Value
  | leaf (.raw text) :: ts => .ok (text, ts)
  | _ => .error "invalid character looking for beginning of value"

def readNumber : Reader Leaf Nat
  | leaf (.num n) :: ts => .ok (n, ts)
  | _ => .error "json: cannot unmarshal into Go value of type uint64"

def readItems : Reader Leaf (List (Name × Value))
  | obj :: ts => readMembers (fun _ => readText) ts
  | leaf (.raw text) :: ts =>
    if text = nullText then .ok ([], ts) else .error "json: cannot unmarshal into Go value of type map"
  | _ => .error "json: cannot unmarshal into Go value of type map"

def readCounts (codec : Codec) : Reader Leaf (List (Name × Nat))
  | obj :: ts => readMembers (fun _ => readNumber) ts
  | leaf (.raw text) :: ts => do return (← codec.counts text, ts)
  | _ => .error "json: cannot unmarshal into Go value of type map"

def readRevisions (codec : Codec) : Reader Leaf (List (Name × List (Name × Nat)))
  | obj :: ts => readMembers (fun _ => readCounts codec) ts
  | leaf (.raw text) :: ts =>
    if text = nullText then .ok ([], ts) else .error "json: cannot unmarshal into Go value of type map"
  | _ => .error "json: cannot unmarshal into Go value of type map"

def readLeases : Reader Leaf (List LeaseSnapshot)
  | leaf (.leases entries) :: ts => .ok (entries, ts)
  | _ => .error "json: cannot unmarshal into Go value of type []easyraft.leaseSnapshot"

def readStaged (codec : Codec) : Reader Leaf ImportState
  | leaf (.staged state) :: ts => .ok (state, ts)
  | obj :: ts => do
    let (items, ts) ← readMembers (fun _ => readText) ts
    return (← codec.staged items, ts)
  | _ => .error "json: cannot unmarshal into Go value of type easyraft.importSnapshot"

/-- What one member of a snapshot says. -/
inductive Part
  | items (entries : List (Name × Value))
  | revisions (entries : List (Name × List (Name × Nat)))
  | revision (n : Nat)
  | leases (entries : List LeaseSnapshot)
  | staged (state : ImportState)

/-- Reads a part of a snapshot, with the name of the field in front of an error. -/
def readAs {β : Type} (field : String) (part : β → Part) (read : Reader Leaf β) : Reader Leaf Part :=
  fun ts =>
    match read ts with
    | .ok (b, ts) => .ok (part b, ts)
    | .error reason => .error (field ++ ": " ++ reason)

def readPart (codec : Codec) (name : Name) : Reader Leaf Part :=
  if name = snapshotRevisionsKey then readAs "revisions" .revisions (readRevisions codec)
  else if name = snapshotRevisionKey then readAs "revision" .revision readNumber
  else if name = snapshotLeasesKey then readAs "leases" .leases readLeases
  else if name = snapshotImportKey then readAs "staged import" .staged (readStaged codec)
  else readAs ("collection " ++ name.quote) .items readItems

def insertAll {γ : Type} (m : ExtTreeMap Name γ) (entries : List (Name × γ)) : ExtTreeMap Name γ :=
  entries.foldl (fun m e => m.insert e.1 e.2) m

def SnapshotContents.empty : SnapshotContents := ⟨∅, ∅, 0, [], none⟩

/-- One member more; an import in progress without data keeps the data. -/
def SnapshotContents.add (out : SnapshotContents) : Name × Part → SnapshotContents
  | (c, .items entries) => { out with collections := out.collections.insert c (insertAll ∅ entries) }
  | (_, .revisions entries) => { out with
      revisions := insertAll out.revisions (entries.map fun e => (e.1, insertAll ∅ e.2)) }
  | (_, .revision n) => { out with revision := n }
  | (_, .leases entries) => { out with leases := entries }
  | (_, .staged state) => { out with
      staged := some { state with
        buf := if state.buf = [] then (out.staged.map (·.buf)).getD [] else state.buf } }

/-- Reads a snapshot; one that is empty, or `null`, holds nothing. -/
def decodeSnapshot (codec : Codec) : List (Token Leaf) → Except String SnapshotContents
  | [] => .ok .empty
  | obj :: ts => do
    let (parts, _) ← readMembers (readPart codec) ts
    return parts.foldl SnapshotContents.add .empty
  | leaf (.raw text) :: _ => if text = nullText then .ok .empty else .error "expected a JSON object"
  | _ => .error "expected a JSON object"

/-- Replaces the contents of a store by a snapshot. -/
def Store.restore (codec : Codec) (s : Store) (ts : List (Token Leaf)) : Except String Store :=
  match decodeSnapshot codec ts with
  | .error reason => .error ("easyraft: restore decode: " ++ reason)
  | .ok decoded =>
    let tables := rebuildLeases decoded.leases
    .ok { s with
      collections := decoded.collections, revisions := decoded.revisions, revision := decoded.revision
      leases := tables.1, keyLeases := tables.2, importing := decoded.staged }.recount

/-! ## What a snapshot holds -/

namespace Part

def tokens : Part → List (Token Leaf)
  | items entries => [obj] ++ separated (entries.map fun e => member e.1 [leaf (.raw e.2)]) ++ [close]
  | revisions entries => [obj] ++ separated (entries.map fun e => member e.1
      ([obj] ++ separated (e.2.map fun i => member i.1 [leaf (.num i.2)]) ++ [close])) ++ [close]
  | revision n => [leaf (.num n)]
  | leases entries => [leaf (.leases entries)]
  | staged state => [leaf (.staged state)]

def GoesUnder (name : Name) : Part → Prop
  | items _ => isSnapshotKey name = false
  | revisions _ => name = snapshotRevisionsKey
  | revision _ => name = snapshotRevisionKey
  | leases _ => name = snapshotLeasesKey
  | staged _ => name = snapshotImportKey

end Part

theorem readItems_tokens (entries : List (Name × Value)) (rest : List (Token Leaf)) :
    readItems ((Part.items entries).tokens ++ rest) = .ok (entries, rest) := by
  have h := readMembers_separated (fun _ => readText) (fun _ text => [leaf (.raw text)]) entries
    (fun _ _ _ => rfl) rest
  rw [Part.tokens, List.append_assoc, List.append_assoc]
  exact h

theorem readCounts_tokens (codec : Codec) (entries : List (Name × Nat)) (rest : List (Token Leaf)) :
    readCounts codec ([obj] ++ separated (entries.map fun e => member e.1 [leaf (.num e.2)]) ++ [close] ++
      rest) = .ok (entries, rest) := by
  have h := readMembers_separated (fun _ => readNumber) (fun _ n => [leaf (.num n)]) entries
    (fun _ _ _ => rfl) rest
  rw [List.append_assoc, List.append_assoc]
  exact h

theorem readRevisions_tokens (codec : Codec) (entries : List (Name × List (Name × Nat)))
    (rest : List (Token Leaf)) :
    readRevisions codec ((Part.revisions entries).tokens ++ rest) = .ok (entries, rest) := by
  have h := readMembers_separated (fun _ => readCounts codec)
    (fun _ counts => [obj] ++ separated (counts.map fun i => member i.1 [leaf (.num i.2)]) ++ [close])
    entries (fun e _ rest => readCounts_tokens codec e.2 rest) rest
  rw [Part.tokens, List.append_assoc, List.append_assoc]
  exact h

theorem readPart_tokens (codec : Codec) {c : Name} {part : Part} (h : part.GoesUnder c)
    (rest : List (Token Leaf)) : readPart codec c (part.tokens ++ rest) = .ok (part, rest) := by
  unfold readPart
  cases part with
  | items entries =>
    have hno : c ≠ snapshotRevisionsKey ∧ c ≠ snapshotRevisionKey ∧ c ≠ snapshotLeasesKey ∧
        c ≠ snapshotImportKey := by
      simpa [Part.GoesUnder, isSnapshotKey, and_assoc] using h
    rw [if_neg hno.1, if_neg hno.2.1, if_neg hno.2.2.1, if_neg hno.2.2.2, readAs, readItems_tokens]
  | revisions entries =>
    obtain rfl : c = snapshotRevisionsKey := h
    rw [if_pos rfl, readAs, readRevisions_tokens]
  | revision n =>
    obtain rfl : c = snapshotRevisionKey := h
    rfl
  | leases entries =>
    obtain rfl : c = snapshotLeasesKey := h
    rfl
  | staged state =>
    obtain rfl : c = snapshotImportKey := h
    rfl

/-- The members of a snapshot. -/
def partsOf (collections : Nested Name Name Value) (revisions : Nested Name Name Nat)
    (revision : Nat) (leases : List LeaseSnapshot) (staged : Option ImportState) : List (Name × Part) :=
  collections.toList.map (fun e => (e.1, .items (e.2.toList.map fun i => (i.1, textOf i.2)))) ++
    ([(snapshotRevisionsKey, .revisions (revisions.toList.map fun e => (e.1, e.2.toList))),
      (snapshotRevisionKey, .revision revision)] ++
    ((if leases = [] then [] else [(snapshotLeasesKey, .leases leases)]) ++
    staged.toList.map fun state => (snapshotImportKey, .staged state)))

section Contents

variable (collections : Nested Name Name Value) (revisions : Nested Name Name Nat) (revision : Nat)
  (leases : List LeaseSnapshot) (staged : Option ImportState)

theorem streamCollections_eq : streamCollections collections revisions revision leases staged =
    [obj] ++ separated ((partsOf collections revisions revision leases staged).map fun m =>
      member m.1 m.2.tokens) ++ [close] := by
  have hitems : (collections.toList.map fun e => member e.1 (streamItems e.2)) =
      (collections.toList.map fun e => (e.1, Part.items (e.2.toList.map fun i => (i.1, textOf i.2)))).map
        fun m => member m.1 m.2.tokens := by
    simp [streamItems, Part.tokens, Function.comp_def]
  have hrevs : ([obj] ++ separated (revisions.toList.map fun e => member e.1 (streamRevisions e.2)) ++
      [close] : List (Token Leaf)) =
        (Part.revisions (revisions.toList.map fun e => (e.1, e.2.toList))).tokens := by
    simp [streamRevisions, Part.tokens, Function.comp_def]
  unfold streamCollections partsOf
  rw [List.map_append, separated_append (by simp), hitems, hrevs]
  cases staged <;> by_cases hl : leases = [] <;> by_cases hc : collections.toList = [] <;>
    simp [separated, member, Part.tokens, hl, hc]

/-- Collections as they are written: a value without a text is `null`. -/
def asWritten (collections : Nested Name Name Value) : Nested Name Name Value :=
  collections.map fun _ items => items.map fun _ value => textOf value

theorem partsOf_goesUnder (hnames : ∀ c ∈ collections, isSnapshotKey c = false) {m : Name × Part}
    (hm : m ∈ partsOf collections revisions revision leases staged) : m.2.GoesUnder m.1 := by
  unfold partsOf at hm
  simp only [List.mem_append, List.mem_map, List.mem_cons, List.not_mem_nil, or_false] at hm
  rcases hm with ⟨⟨c, items⟩, hin, rfl⟩ | (rfl | rfl) | hm | ⟨state, -, rfl⟩
  · refine hnames c ?_
    rw [ExtTreeMap.mem_toList_iff_getElem?_eq_some] at hin
    rw [ExtTreeMap.mem_iff_isSome_getElem?, hin]
    rfl
  · rfl
  · rfl
  · split_ifs at hm
    · cases hm
    · obtain rfl := List.mem_singleton.mp hm
      rfl
  · rfl

theorem insertAll_toList {γ : Type} (m : ExtTreeMap Name γ) : insertAll ∅ m.toList = m :=
  foldl_insert_toList m

theorem foldl_add_items (es : List (Name × ExtTreeMap Name Value)) (out : SnapshotContents) :
    (es.map fun e => (e.1, Part.items (e.2.toList.map fun i => (i.1, textOf i.2)))).foldl
        SnapshotContents.add out =
      { out with
        collections := insertAll out.collections
          (es.map fun e => (e.1, e.2.map fun _ value => textOf value)) } := by
  induction es generalizing out with
  | nil => rfl
  | cons e es ih =>
    have hitems : insertAll ∅ (e.2.toList.map fun i => (i.1, textOf i.2)) =
        e.2.map fun _ value => textOf value := by
      rw [← insertAll_toList (e.2.map fun _ value => textOf value), ExtTreeMap.toList_map]
    rw [List.map_cons, List.foldl_cons, ih, SnapshotContents.add, hitems]
    rfl

theorem foldl_add_partsOf : (partsOf collections revisions revision leases staged).foldl
    SnapshotContents.add .empty = ⟨asWritten collections, revisions, revision, leases, staged⟩ := by
  have hcollections : insertAll ∅ (collections.toList.map fun e => (e.1, e.2.map fun _ value => textOf value)) =
      asWritten collections := by
    rw [← insertAll_toList (asWritten collections), asWritten, ExtTreeMap.toList_map]
  have hrevisions : insertAll ∅ ((revisions.toList.map fun e => (e.1, e.2.toList)).map fun e =>
      (e.1, insertAll ∅ e.2)) = revisions := by
    rw [List.map_map]
    conv_rhs => rw [← insertAll_toList revisions]
    congr 1
    conv_rhs => rw [← List.map_id revisions.toList]
    refine List.map_congr_left fun e _ => ?_
    simp [insertAll_toList]
  have hstaged : ∀ state : ImportState, { state with buf := if state.buf = [] then [] else state.buf } = state := by
    intro state
    split_ifs with hbuf
    · rw [← hbuf]
    · rfl
  unfold partsOf
  rw [List.foldl_append, foldl_add_items, List.foldl_append, List.foldl_append]
  simp only [List.foldl_cons, List.foldl_nil, SnapshotContents.add, SnapshotContents.empty]
  rw [hcollections, hrevisions]
  by_cases hleases : leases = []
  · cases staged <;> simp [hleases, SnapshotContents.add, hstaged]
  · cases staged <;> simp [hleases, SnapshotContents.add, hstaged]

variable {collections} in
/-- **What a snapshot holds**, when no collection has a name of its own. -/
theorem decodeSnapshot_streamCollections (codec : Codec)
    (hnames : ∀ c ∈ collections, isSnapshotKey c = false) :
    decodeSnapshot codec (streamCollections collections revisions revision leases staged) =
      .ok ⟨asWritten collections, revisions, revision, leases, staged⟩ := by
  have hread := readMembers_separated (readPart codec) (fun _ part => part.tokens)
    (partsOf collections revisions revision leases staged)
    (fun m hm rest => readPart_tokens codec (partsOf_goesUnder _ _ _ _ _ hnames hm) rest) []
  rw [streamCollections_eq]
  change (do
    let (parts, _) ← readMembers (readPart codec) (separated _ ++ close :: [])
    return parts.foldl SnapshotContents.add .empty) = _
  rw [hread, ← foldl_add_partsOf collections revisions revision leases staged]
  rfl

end Contents

/-! ## What can be read at all -/

def hasText (t : Token Leaf) : Prop := t ≠ leaf (.raw [])

theorem hasText_tail {t : Token Leaf} {ts : List (Token Leaf)} (h : ∀ t' ∈ t :: ts, hasText t') :
    ∀ t' ∈ ts, hasText t' := fun t' ht' => h t' (List.mem_cons_of_mem _ ht')

variable {codec : Codec} {s : Store}

section Reads

variable {ts rest : List (Token Leaf)}

theorem readText_reads : Token.Reads (fun _ => readText) (fun _ text => text ≠ []) hasText := by
  intro _ ts text rest hts h
  match ts, h with
  | leaf (.raw text') :: ts', h =>
    cases h
    exact ⟨fun hnil => hts _ List.mem_cons_self (by rw [hnil]), hasText_tail hts⟩

theorem readNumber_reads : Token.Reads (fun _ => readNumber) (fun _ _ => True) hasText := by
  intro _ ts n rest hts h
  match ts, h with
  | leaf (.num n') :: ts', h =>
    cases h
    exact ⟨trivial, hasText_tail hts⟩

theorem readItems_reads {entries : List (Name × Value)} (hts : ∀ t ∈ ts, hasText t)
    (h : readItems ts = .ok (entries, rest)) : (∀ e ∈ entries, e.2 ≠ []) ∧ ∀ t ∈ rest, hasText t := by
  match ts, h with
  | obj :: ts', h => exact readMembers_forall readText_reads (hasText_tail hts) h
  | leaf (.raw text) :: ts', h =>
    simp only [readItems] at h
    split_ifs at h
    cases h
    exact ⟨by simp, hasText_tail hts⟩

theorem readCounts_reads (codec : Codec) : Token.Reads (fun _ => readCounts codec) (fun _ _ => True) hasText := by
  intro _ ts entries rest hts h
  match ts, h with
  | obj :: ts', h => exact ⟨trivial, (readMembers_forall readNumber_reads (hasText_tail hts) h).2⟩
  | leaf (.raw text) :: ts', h =>
    simp only [readCounts] at h
    cases hcounts : codec.counts text with
    | error e =>
      rw [hcounts] at h
      cases h
    | ok counts =>
      rw [hcounts] at h
      cases h
      exact ⟨trivial, hasText_tail hts⟩

section

variable (hts : ∀ t ∈ ts, hasText t)

include hts

theorem readRevisions_reads {entries : List (Name × List (Name × Nat))}
    (h : readRevisions codec ts = .ok (entries, rest)) : ∀ t ∈ rest, hasText t := by
  match ts, h with
  | obj :: ts', h => exact (readMembers_forall (readCounts_reads codec) (hasText_tail hts) h).2
  | leaf (.raw text) :: ts', h =>
    simp only [readRevisions] at h
    split_ifs at h
    cases h
    exact hasText_tail hts

theorem readLeases_reads {entries : List LeaseSnapshot} (h : readLeases ts = .ok (entries, rest)) :
    ∀ t ∈ rest, hasText t := by
  match ts, h with
  | leaf (.leases entries') :: ts', h =>
    cases h
    exact hasText_tail hts

theorem readStaged_reads {state : ImportState} (h : readStaged codec ts = .ok (state, rest)) :
    ∀ t ∈ rest, hasText t := by
  match ts, h with
  | leaf (.staged state') :: ts', h =>
    cases h
    exact hasText_tail hts
  | obj :: ts', h =>
    simp only [readStaged] at h
    cases hitems : readMembers (fun _ => readText) ts' with
    | error e =>
      rw [hitems] at h
      cases h
    | ok r =>
      obtain ⟨items, rest'⟩ := r
      have hrest := (readMembers_forall readText_reads (hasText_tail hts) hitems).2
      cases hstaged : codec.staged items with
      | error e => simp [hitems, hstaged, bind, Except.bind] at h
      | ok state' =>
        simp only [hitems, hstaged, bind, Except.bind, pure, Except.pure, Except.ok.injEq,
          Prod.mk.injEq] at h
        obtain ⟨rfl, rfl⟩ := h
        exact hrest

end

theorem readAs_ok {β : Type} {field : String} {part : β → Part} {read : Reader Leaf β} {p : Part}
    (h : readAs field part read ts = .ok (p, rest)) : ∃ b, p = part b ∧ read ts = .ok (b, rest) := by
  unfold readAs at h
  split at h
  · rename_i b ts' heq
    cases h
    exact ⟨b, rfl, heq⟩
  · cases h

def Part.Sound (c : Name) : Part → Prop
  | items entries => isSnapshotKey c = false ∧ ∀ e ∈ entries, e.2 ≠ []
  | _ => True

theorem readPart_reads (codec : Codec) : Token.Reads (readPart codec) Part.Sound hasText := by
  intro c ts p rest hts h
  unfold readPart at h
  split_ifs at h with h₁ h₂ h₃ h₄
  · obtain ⟨b, rfl, hb⟩ := readAs_ok h
    exact ⟨trivial, readRevisions_reads hts hb⟩
  · obtain ⟨b, rfl, hb⟩ := readAs_ok h
    exact ⟨trivial, (readNumber_reads c ts b rest hts hb).2⟩
  · obtain ⟨b, rfl, hb⟩ := readAs_ok h
    exact ⟨trivial, readLeases_reads hts hb⟩
  · obtain ⟨b, rfl, hb⟩ := readAs_ok h
    exact ⟨trivial, readStaged_reads hts hb⟩
  · obtain ⟨b, rfl, hb⟩ := readAs_ok h
    obtain ⟨hvalues, hrest⟩ := readItems_reads hts hb
    exact ⟨⟨by simp [isSnapshotKey, h₁, h₂, h₃, h₄], hvalues⟩, hrest⟩

end Reads

structure SnapshotContents.Readable (d : SnapshotContents) : Prop where
  named : ∀ c ∈ d.collections, isSnapshotKey c = false
  valued : ∀ c k, d.collections.lookup c k ≠ some []

theorem insertAll_getElem? {γ : Type} (entries : List (Name × γ)) (m : ExtTreeMap Name γ) (k : Name) (v : γ)
    (h : (insertAll m entries)[k]? = some v) : (∃ e ∈ entries, e.2 = v) ∨ m[k]? = some v := by
  induction entries generalizing m with
  | nil => exact .inr h
  | cons e entries ih =>
    rcases ih _ h with ⟨e', he', hv⟩ | hm
    · exact .inl ⟨e', List.mem_cons_of_mem _ he', hv⟩
    · rw [ExtTreeMap.getElem?_insert] at hm
      split_ifs at hm
      · exact .inl ⟨e, List.mem_cons_self, Option.some.inj hm⟩
      · exact .inr hm

theorem SnapshotContents.Readable.add {out : SnapshotContents} (h : out.Readable) {m : Name × Part}
    (hm : m.2.Sound m.1) : (out.add m).Readable := by
  obtain ⟨c, part⟩ := m
  cases part with
  | items entries =>
    obtain ⟨hname, hvalues⟩ := hm
    refine ⟨fun c' hc' => ?_, fun c' k hlookup => ?_⟩
    · rcases (ExtTreeMap.mem_insert.mp hc') with heq | hin
      · rw [← Std.compare_eq_iff_eq.mp heq]
        exact hname
      · exact h.named c' hin
    · change ((out.collections.insert c (insertAll ∅ entries))[c']?.bind (·[k]?)) = some [] at hlookup
      rw [ExtTreeMap.getElem?_insert] at hlookup
      split_ifs at hlookup
      · rcases insertAll_getElem? entries ∅ k [] hlookup with ⟨e, he, hv⟩ | hempty
        · exact hvalues e he hv
        · simp at hempty
      · exact h.valued c' k hlookup
  | revisions entries | revision n | leases entries | staged state => exact ⟨h.named, h.valued⟩

/-- **What is read of a document can be the contents of a store.** -/
theorem decodeSnapshot_readable {ts : List (Token Leaf)} {d : SnapshotContents}
    (hts : ∀ t ∈ ts, hasText t) (h : decodeSnapshot codec ts = .ok d) : d.Readable := by
  have hempty : SnapshotContents.empty.Readable := by
    refine ⟨fun c hc => ?_, fun c k hlookup => ?_⟩
    · simp [SnapshotContents.empty] at hc
    · simp [SnapshotContents.empty, Nested.lookup] at hlookup
  unfold decodeSnapshot at h
  split at h
  · cases h
    exact hempty
  · rename_i ts
    cases hparts : readMembers (readPart codec) ts with
    | error e =>
      rw [hparts] at h
      cases h
    | ok r =>
      obtain ⟨parts, rest⟩ := r
      have hsound := (readMembers_forall (readPart_reads codec) (hasText_tail hts) hparts).1
      rw [hparts] at h
      obtain rfl := Except.ok.inj h
      -- each member keeps what has been read so far readable
      clear hparts h
      generalize SnapshotContents.empty = out at hempty
      induction parts generalizing out with
      | nil => exact hempty
      | cons m parts ih =>
        obtain ⟨hm, hrest⟩ := List.forall_mem_cons.mp hsound
        exact ih hrest _ (hempty.add hm)
  · split_ifs at h
    cases h
    exact hempty
  · cases h

/-! ## The leases -/

theorem rebuildLeases_eq (entries : List LeaseSnapshot) : rebuildLeases entries =
    (entries.foldl (fun leases e => leases.insert e.id
        ⟨e.ttlMillis, e.expiresAtMillis, e.keys.foldl (·.insert ·) ∅⟩) ∅,
      entries.foldl (fun owners e => e.keys.foldl (fun owners ref => owners.insert ref e.id) owners) ∅) := by
  unfold rebuildLeases
  generalize (∅ : ExtTreeMap Nat LeaseState) = leases
  generalize (∅ : ExtTreeMap KeyRef Nat) = owners
  induction entries generalizing leases owners with
  | nil => rfl
  | cons e entries ih => exact ih _ _

theorem rebuildLeases_fst (s : Store) : (rebuildLeases s.leaseSnapshot).1 = s.leases := by
  rw [rebuildLeases_eq, Store.leaseSnapshot, List.foldl_map]
  dsimp only
  conv_rhs => rw [← foldl_insert_toList s.leases]
  congr 1
  funext leases e
  rw [foldl_insert_set_toList]

theorem owners_insert (refs : List KeyRef) (id : Nat) (owners : ExtTreeMap KeyRef Nat) (ref : KeyRef) :
    (refs.foldl (fun owners ref => owners.insert ref id) owners)[ref]? =
      if ref ∈ refs then some id else owners[ref]? := by
  induction refs generalizing owners with
  | nil => simp
  | cons r refs ih =>
    grind

theorem owners_foldl {entries : List LeaseSnapshot} {ref : KeyRef} {id : Nat}
    (h : ∀ e ∈ entries, ref ∈ e.keys → e.id = id) (owners : ExtTreeMap KeyRef Nat) :
    (entries.foldl (fun owners e => e.keys.foldl (fun owners ref => owners.insert ref e.id) owners)
      owners)[ref]? = if ∃ e ∈ entries, ref ∈ e.keys then some id else owners[ref]? := by
  induction entries generalizing owners with
  | nil => simp
  | cons e entries ih =>
    rw [List.foldl_cons, ih fun e' he' => h e' (List.mem_cons_of_mem _ he'), owners_insert]
    have he := h e List.mem_cons_self
    simp only [List.exists_mem_cons_iff]
    by_cases hlater : ∃ e ∈ entries, ref ∈ e.keys
    · rw [if_pos hlater, if_pos (.inr hlater)]
    · rw [if_neg hlater]
      by_cases hin : ref ∈ e.keys
      · rw [if_pos hin, if_pos (.inl hin), he hin]
      · rw [if_neg hin, if_neg (fun hor => hor.elim hin hlater)]

/-- A key is listed by the lease that owns it, and by no other. -/
def Hold.Owned (h : Hold) : Prop := ∀ id, h.owner = some id ↔ h.listed id = true

theorem mem_leaseSnapshot {e : LeaseSnapshot} (he : e ∈ s.leaseSnapshot) (ref : KeyRef) :
    ref ∈ e.keys ↔ (s.hold ref).listed e.id = true := by
  rw [Store.leaseSnapshot, List.mem_map] at he
  obtain ⟨⟨id, held⟩, hin, rfl⟩ := he
  rw [ExtTreeMap.mem_toList_iff_getElem?_eq_some] at hin
  change ref ∈ held.keys.toList ↔ (s.leases[id]?).any (·.keys.contains ref) = true
  rw [hin, ExtTreeSet.mem_toList]
  simp

theorem rebuildLeases_snd (howned : ∀ ref, (s.hold ref).Owned) :
    (rebuildLeases s.leaseSnapshot).2 = s.keyLeases := by
  rw [rebuildLeases_eq]
  refine ExtTreeMap.ext_getElem? fun ref => ?_
  have hlists : ∀ e ∈ s.leaseSnapshot, ref ∈ e.keys → s.keyLeases[ref]? = some e.id :=
    fun e he hin => (howned ref e.id).mpr ((mem_leaseSnapshot he ref).mp hin)
  cases hown : s.keyLeases[ref]? with
  | some id =>
    rw [owners_foldl (fun e he hin => by
      have := hlists e he hin
      rw [hown] at this
      exact (Option.some.inj this).symm), if_pos]
    -- the owner is a lease that lists the key
    have hlisted : (s.leases[id]?).any (·.keys.contains ref) = true := (howned ref id).mp hown
    cases hheld : s.leases[id]? with
    | none => simp [hheld] at hlisted
    | some held =>
      refine ⟨⟨id, held.ttlMillis, held.expiresAtMillis, held.keys.toList⟩, ?_, ?_⟩
      · exact List.mem_map.mpr ⟨(id, held), ExtTreeMap.mem_toList_iff_getElem?_eq_some.mpr hheld, rfl⟩
      · simpa [hheld] using hlisted
  | none =>
    have hno : ∀ e ∈ s.leaseSnapshot, ref ∉ e.keys := by
      intro e he hin
      have := hlists e he hin
      rw [hown] at this
      cases this
    rw [owners_foldl fun e he hin => (absurd hin (hno e he) : e.id = 0), if_neg]
    · simp
    · rintro ⟨e, he, hin⟩
      exact hno e he hin

/-! ## A store that comes back -/

/-- A store that a snapshot gives back: names and texts are proper, counters right, owners
listed. -/
structure Store.Restorable (s : Store) : Prop where
  named : ∀ c ∈ s.collections, isSnapshotKey c = false
  valued : ∀ ref, s.valueAt ref ≠ some []
  counted : s.recount = s
  owned : ∀ ref, (s.hold ref).Owned

theorem asWritten_of_valued (h : ∀ ref, s.valueAt ref ≠ some []) :
    asWritten s.collections = s.collections := by
  refine ExtTreeMap.ext_getElem? fun c => ?_
  rw [asWritten, ExtTreeMap.getElem?_map]
  cases hc : s.collections[c]? with
  | none => rfl
  | some items =>
    refine congrArg some (ExtTreeMap.ext_getElem? fun k => ?_)
    rw [ExtTreeMap.getElem?_map]
    cases hk : items[k]? with
    | none => rfl
    | some value =>
      have hvalue : s.valueAt ⟨c, k⟩ = some value := by
        rw [Store.valueAt, Nested.lookup, hc]
        exact hk
      have hne : value ≠ [] := fun heq => h ⟨c, k⟩ (heq ▸ hvalue)
      rw [Option.map_some, textOf, if_neg hne]

/-- **A store comes back from its snapshot**, whatever it is restored into. -/
theorem Store.restore_snapshot (codec : Codec) (h : s.Restorable) (s₀ : Store) :
    s₀.restore codec s.snapshot = .ok { s with pendingEvents := s₀.pendingEvents } := by
  rw [Store.restore, Store.snapshot,
    decodeSnapshot_streamCollections _ _ _ _ codec h.named, asWritten_of_valued h.valued]
  dsimp only
  rw [rebuildLeases_fst, rebuildLeases_snd h.owned]
  have hbytes := congrArg Store.stateBytes h.counted
  have hcount := congrArg Store.keyCount h.counted
  unfold Store.recount at hbytes hcount ⊢
  dsimp only at hbytes hcount ⊢
  rw [hbytes, hcount]

end Raft.Easyraft
