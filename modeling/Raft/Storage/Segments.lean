import Mathlib.Data.List.Range
import Mathlib.Data.List.Pairwise

/-!
# Finding the segment of an entry

The file store keeps its log in segments, each with the first and the last index it holds.
A segment that holds nothing has no range: the search for an index steps from it to the next
one that does, to the right if there is one in the window and else to the left.  It finds the one
segment of the index because the ranges are disjoint, which every operation of the store keeps.
-/

namespace Raft.Filestore

/-- A segment; the first index 0 says that it is empty. -/
structure Segment where
  firstID : Nat
  lastID : Nat
  le : firstID ≤ lastID

def Segment.contains (s : Segment) (index : Nat) : Prop :=
  s.firstID ≠ 0 ∧ s.firstID ≤ index ∧ index ≤ s.lastID

variable (segs : List Segment)

def filled (i : Nat) : Bool := segs[i]?.any (·.firstID ≠ 0)

/-- The position to look at: the middle, or the nearest one that is not empty. -/
def probe (lo hi : Nat) : Option Nat :=
  let mid := (lo + (hi - 1)) / 2
  if filled segs mid then some mid
  else ((List.range' (mid + 1) (hi - (mid + 1))).find? (filled segs)).or
    ((List.range' lo (mid - lo)).reverse.find? (filled segs))

variable {segs} {lo hi mid index k : Nat}

theorem probe_eq_some (hlt : lo < hi) (h : probe segs lo hi = some mid) :
    (lo ≤ mid ∧ mid < hi) ∧ filled segs mid = true := by
  unfold probe at h
  dsimp only at h
  split_ifs at h with hmid
  · cases h
    exact ⟨by omega, hmid⟩
  · rcases Option.or_eq_some_iff.mp h with hright | ⟨-, hleft⟩
    · have hmem := List.mem_range'_1.mp (List.mem_of_find?_eq_some hright)
      exact ⟨by omega, List.find?_some hright⟩
    · have hmem := List.mem_range'_1.mp (List.mem_reverse.mp (List.mem_of_find?_eq_some hleft))
      exact ⟨by omega, List.find?_some hleft⟩

theorem probe_eq_none (h : probe segs lo hi = none) {i : Nat} (hlo : lo ≤ i) (hhi : i < hi) :
    filled segs i = false := by
  unfold probe at h
  dsimp only at h
  split_ifs at h with hmid
  obtain ⟨hright, hleft⟩ := Option.or_eq_none_iff.mp h
  rw [List.find?_eq_none] at hright hleft
  rcases Nat.lt_trichotomy i ((lo + (hi - 1)) / 2) with hlt | rfl | hlt
  · simpa using hleft i (List.mem_reverse.mpr (List.mem_range'_1.mpr (by omega)))
  · simpa using hmid
  · simpa using hright i (List.mem_range'_1.mpr (by omega))

variable (segs) (index) in
def search (lo hi : Nat) : Option Nat :=
  if _hlt : lo < hi then
    match _hmid : probe segs lo hi with
    | none => none
    | some mid =>
      match segs[mid]? with
      | none => none
      | some s =>
        if s.lastID < index then search (mid + 1) hi
        else if index < s.firstID then search lo mid
        else some mid
  else none
termination_by hi - lo
decreasing_by
  all_goals
    have hwin := (probe_eq_some _hlt _hmid).1
    omega

variable (segs) (index) in
/-- The position of the segment that holds the entry at an index. -/
def findSegIdx : Option Nat := search segs index 0 segs.length

/-- The segments that hold something hold one range after the other. -/
def Disjoint (segs : List Segment) : Prop :=
  segs.Pairwise fun s t => s.firstID ≠ 0 → t.firstID ≠ 0 → s.lastID < t.firstID

theorem Disjoint.side {j : Nat} {s t : Segment} (h : Disjoint segs) (hs : segs[mid]? = some s)
    (hfilled : filled segs mid = true) (ht : segs[j]? = some t) (hc : t.contains index) :
    j < mid ∧ index < s.firstID ∨ j = mid ∧ s.firstID ≤ index ∧ index ≤ s.lastID ∨
      mid < j ∧ s.lastID < index := by
  obtain ⟨hne, hle, hge⟩ := hc
  have hfilled : s.firstID ≠ 0 := by simpa [filled, hs] using hfilled
  obtain ⟨hmid, rfl⟩ := List.getElem?_eq_some_iff.mp hs
  obtain ⟨hj, rfl⟩ := List.getElem?_eq_some_iff.mp ht
  have hlt := List.pairwise_iff_getElem.mp h
  rcases Nat.lt_trichotomy j mid with hjm | rfl | hjm
  · have := hlt j mid hj hmid hjm hne hfilled
    omega
  · exact .inr (.inl ⟨rfl, hle, hge⟩)
  · have := hlt mid j hmid hj hjm hfilled hne
    omega

theorem search_eq_some_iff (h : Disjoint segs)
    (hin : ∀ j s, segs[j]? = some s → s.contains index → lo ≤ j ∧ j < hi) :
    search segs index lo hi = some k ↔ ∃ s, segs[k]? = some s ∧ s.contains index := by
  -- the invariant: nothing outside the window contains the index
  fun_induction search segs index lo hi with
  | case1 lo hi hlt hmid =>
    refine iff_of_false nofun ?_
    rintro ⟨s, hs, hc⟩
    obtain ⟨hlo, hhi⟩ := hin k s hs hc
    simpa [filled, hs, hc.1] using probe_eq_none hmid hlo hhi
  | case2 lo hi hlt mid hmid hs => simpa [filled, hs] using (probe_eq_some hlt hmid).2
  | case3 lo hi hlt mid hmid s hs hlast ih =>
    refine ih fun j t ht hc => ?_
    have hside := h.side hs (probe_eq_some hlt hmid).2 ht hc
    have hwin := hin j t ht hc
    have hle := s.le
    omega
  | case4 lo hi hlt mid hmid s hs hlast hfirst ih =>
    refine ih fun j t ht hc => ?_
    have hside := h.side hs (probe_eq_some hlt hmid).2 ht hc
    have hwin := hin j t ht hc
    have hle := s.le
    omega
  | case5 lo hi hlt mid hmid s hs hlast hfirst =>
    have hfilled := (probe_eq_some hlt hmid).2
    refine ⟨fun heq => ?_, fun ⟨t, ht, hc⟩ => ?_⟩
    · cases heq
      exact ⟨s, hs, by simpa [filled, hs] using hfilled, by omega, by omega⟩
    · have hside := h.side hs hfilled ht hc
      exact congrArg some (by omega)
  | case6 lo hi hlt =>
    refine iff_of_false nofun ?_
    rintro ⟨s, hs, hc⟩
    have hwin := hin k s hs hc
    omega

/-- **The search finds the one segment that holds an index**, and none if there is none. -/
theorem findSegIdx_eq_some_iff {segs : List Segment} (h : Disjoint segs) (index k : Nat) :
    findSegIdx segs index = some k ↔ ∃ s, segs[k]? = some s ∧ s.contains index :=
  search_eq_some_iff h fun _ _ hs _ => ⟨Nat.zero_le _, (List.getElem?_eq_some_iff.mp hs).1⟩

/-- An empty segment in the middle is stepped over. -/
theorem findSegIdx_beyond_empty :
    findSegIdx [⟨1, 3, by decide⟩, ⟨0, 0, le_rfl⟩, ⟨4, 4, le_rfl⟩] 4 = some 2 :=
  (findSegIdx_eq_some_iff (by simp [Disjoint]) 4 2).mpr ⟨_, rfl, by simp [Segment.contains]⟩

/-! ## The store -/

def Segment.new : Segment := ⟨0, 0, le_rfl⟩

/-- Writing to an empty segment sets its first index. -/
def Segment.writeEntry (s : Segment) (index : Nat) : Option Segment :=
  let firstID := if s.firstID = 0 then index else s.firstID
  if h : firstID ≠ 0 ∧ firstID ≤ index then some ⟨firstID, index, h.2⟩ else none

/-- Appends one entry; `full` says that the active segment has reached the size limit. -/
def appendLocked (segs : List Segment) (full : Bool) (index : Nat) : Option (List Segment) :=
  match segs.getLast? with
  | none => (Segment.new.writeEntry index).map ([·])
  | some active =>
    if active.lastID ≠ 0 ∧ full then (Segment.new.writeEntry index).map (segs ++ [·])
    else (active.writeEntry index).map (segs.dropLast ++ [·])

/-- The boundary segment is cut, or removed as a whole. -/
def Segment.cutAt (s : Segment) (fromIndex : Nat) : Option Segment :=
  if h : s.firstID < fromIndex then some ⟨s.firstID, fromIndex - 1, Nat.le_sub_one_of_lt h⟩ else none

def truncateSuffix (segs : List Segment) (fromIndex : Nat) : Option (List Segment) :=
  if segs.getLast?.any fun last => last.lastID ≠ 0 ∧ last.lastID < fromIndex then some segs
  -- ErrCompacted
  else if segs.head?.any fun first => first.firstID ≠ 0 ∧ fromIndex < first.firstID then none
  else
    match findSegIdx segs fromIndex with
    | none => some segs
    | some bound => some (segs.take bound ++ (segs[bound]?.bind (·.cutAt fromIndex)).toList)

/-- The leading segments that end before `toIndex`, up to the last one, are dropped. -/
def dropLeading (toIndex : Nat) : List Segment → List Segment
  | s :: t :: rest =>
    if s.lastID = 0 ∨ toIndex ≤ s.lastID then s :: t :: rest else dropLeading toIndex (t :: rest)
  | segs => segs

/-- The first phase; the second one comes after the lock was released. -/
def truncatePrefix (segs : List Segment) (toIndex : Nat) : List Segment :=
  match segs.head?, segs.getLast? with
  | some first, some last =>
    if first.firstID = 0 ∨ toIndex ≤ first.firstID then segs
    else dropLeading (min toIndex (last.lastID + 1)) segs
  | _, _ => segs

def rewriteBoundarySegment (toIndex : Nat) : List Segment → List Segment
  | [] => []
  | s :: rest =>
    if s.firstID = 0 ∨ toIndex ≤ s.firstID then s :: rest
    else if h : toIndex ≤ s.lastID then ⟨toIndex, s.lastID, h⟩ :: rest
    else .new :: rest

/-- The segments kept on opening: those that hold something and follow on each other. -/
def pruneSegments (segs : List Segment) : List Segment :=
  prune [] segs
where
  prune (keep : List Segment) : List Segment → List Segment
    | [] => keep
    | s :: rest =>
      if s.firstID = 0 then prune keep rest
      else if keep.getLast?.any fun last => s.firstID ≠ last.lastID + 1 then keep
      else prune (keep ++ [s]) rest

/-- The segments of a store: from what opening has found, entries are appended behind all there
are, and truncated on either side, the second phase of a truncation at any time. -/
inductive Stored : List Segment → Prop
  | opened (found : List Segment) : Stored (pruneSegments found)
  | append {segs segs' : List Segment} {full : Bool} {index : Nat} (h : Stored segs)
      (hnext : ∀ s ∈ segs, s.lastID < index) (hsome : appendLocked segs full index = some segs') :
      Stored segs'
  | truncateSuffix {segs segs' : List Segment} {fromIndex : Nat} (h : Stored segs)
      (hsome : truncateSuffix segs fromIndex = some segs') : Stored segs'
  | truncatePrefix {segs : List Segment} (h : Stored segs) (toIndex : Nat) :
      Stored (truncatePrefix segs toIndex)
  | rewrite {segs : List Segment} (h : Stored segs) (toIndex : Nat) :
      Stored (rewriteBoundarySegment toIndex segs)

theorem disjoint_concat {s : Segment} : Disjoint (segs ++ [s]) ↔
    Disjoint segs ∧ ∀ t ∈ segs, t.firstID ≠ 0 → s.firstID ≠ 0 → t.lastID < s.firstID := by
  simp [Disjoint, List.pairwise_append]

theorem Segment.writeEntry_eq_some {s t : Segment} (h : s.writeEntry index = some t) :
    t.lastID = index ∧ t.firstID = if s.firstID = 0 then index else s.firstID := by
  unfold Segment.writeEntry at h
  dsimp only at h
  split_ifs at h <;> cases h <;> simp_all

theorem Disjoint.appendLocked {segs' : List Segment} {full : Bool} (h : Disjoint segs)
    (hnext : ∀ s ∈ segs, s.lastID < index) (hsome : appendLocked segs full index = some segs') :
    Disjoint segs' := by
  have hnew : ∀ {t}, Segment.new.writeEntry index = some t → Disjoint (segs ++ [t]) := fun ht => by
    have hfirst := (Segment.writeEntry_eq_some ht).2
    refine disjoint_concat.mpr ⟨h, fun s hs _ _ => ?_⟩
    rw [hfirst]
    exact hnext s hs
  unfold Filestore.appendLocked at hsome
  rcases List.eq_nil_or_concat segs with rfl | ⟨init, active, rfl⟩
  · obtain ⟨t, ht, rfl⟩ := Option.map_eq_some_iff.mp hsome
    exact hnew ht
  · simp only [List.concat_eq_append, List.getLast?_concat] at h hnew hsome hnext
    split_ifs at hsome <;> obtain ⟨t, ht, rfl⟩ := Option.map_eq_some_iff.mp hsome
    · exact hnew ht
    · obtain ⟨-, hfirst⟩ := Segment.writeEntry_eq_some ht
      obtain ⟨hinit, hbefore⟩ := disjoint_concat.mp h
      rw [List.dropLast_concat]
      refine disjoint_concat.mpr ⟨hinit, fun s hs hne _ => ?_⟩
      rw [hfirst]
      split_ifs with hempty
      · exact hnext s (List.mem_append_left _ hs)
      · exact hbefore s hs hne hempty

theorem Disjoint.truncateSuffix {segs' : List Segment} {fromIndex : Nat} (h : Disjoint segs)
    (hsome : truncateSuffix segs fromIndex = some segs') : Disjoint segs' := by
  unfold Filestore.truncateSuffix at hsome
  split_ifs at hsome
  · cases hsome
    exact h
  · split at hsome <;> cases hsome
    · exact h
    · rename_i bound hbound
      obtain ⟨s, hs, hc⟩ := (search_eq_some_iff h fun _ _ hs _ =>
        ⟨Nat.zero_le _, (List.getElem?_eq_some_iff.mp hs).1⟩).mp hbound
      have htake := h.sublist (List.take_sublist (bound + 1) segs)
      rw [List.take_add_one, hs, Option.toList_some] at htake
      obtain ⟨hinit, hbefore⟩ := disjoint_concat.mp htake
      rw [hs, Option.bind_some, Segment.cutAt]
      split_ifs
      · exact disjoint_concat.mpr ⟨hinit, fun t ht hne _ => hbefore t ht hne hc.1⟩
      · simpa using hinit

theorem dropLeading_sublist (toIndex : Nat) (segs : List Segment) :
    (dropLeading toIndex segs).Sublist segs := by
  fun_induction dropLeading toIndex segs with
  | case1 => exact .refl _
  | case2 s t rest _ ih => exact ih.trans (List.sublist_cons_self ..)
  | case3 => exact .refl _

theorem Disjoint.prune {keep : List Segment} (h : Disjoint keep)
    (hends : ∀ s ∈ keep, s.firstID ≠ 0 ∧ ∀ last ∈ keep.getLast?, s.lastID ≤ last.lastID)
    (segs : List Segment) : Disjoint (pruneSegments.prune keep segs) := by
  fun_induction pruneSegments.prune keep segs with
  | case1 => exact h
  | case2 _ _ _ _ ih => exact ih h hends
  | case3 => exact h
  | case4 keep s rest hne hnext ih =>
    -- everything kept ends before the segment that is added
    have hbefore : ∀ t ∈ keep, t.lastID < s.firstID := fun t ht => by
      obtain ⟨last, hlast⟩ := Option.isSome_iff_exists.mp
        (List.getLast?_isSome.mpr (List.ne_nil_of_mem ht))
      have hle := (hends t ht).2 last hlast
      simp only [hlast, Option.any_some, decide_eq_true_eq, not_not] at hnext
      omega
    have hle := s.le
    refine ih (disjoint_concat.mpr ⟨h, fun t ht _ _ => hbefore t ht⟩) fun t ht => ?_
    simp only [List.getLast?_concat, Option.mem_some_iff, forall_eq']
    rcases List.mem_append.mp ht with ht | ht
    · have := hbefore t ht
      exact ⟨(hends t ht).1, by omega⟩
    · cases List.mem_singleton.mp ht
      exact ⟨hne, le_rfl⟩

/-- **The segments of a store hold one range after the other**, whatever was found on opening. -/
theorem Stored.disjoint (h : Stored segs) : Disjoint segs := by
  induction h with
  | opened found => exact Disjoint.prune .nil (fun s hs => (by cases hs)) found
  | append _ hnext hsome ih => exact ih.appendLocked hnext hsome
  | truncateSuffix _ hsome ih => exact ih.truncateSuffix hsome
  | truncatePrefix _ toIndex ih =>
    unfold Filestore.truncatePrefix
    split
    · split_ifs
      · exact ih
      · exact ih.sublist (dropLeading_sublist ..)
    · exact ih
  | rewrite _ toIndex ih =>
    unfold rewriteBoundarySegment
    split
    · exact ih
    · obtain ⟨hfirst, hrest⟩ := List.pairwise_cons.mp ih
      split_ifs with hnone
      · exact ih
      · exact .cons (fun t ht _ => hfirst t ht (not_or.mp hnone).1) hrest
      · exact .cons (fun t _ hne => absurd rfl hne) hrest

end Raft.Filestore
