import Raft.Log.History

/-!
# Where the terms of a log begin and end

When an append is rejected, the follower says where the term it disagreed in begins in its own
log, and the leader looks up where that term ends in its log.  Both answers come from the run
index.

## Main results

* `Wf.termRunStart_spec`, `TailOf.termRunStart_spec`: the run of an index reaches down as far as the term does, but not
  below the log.
* `TailOf.lastIndexOfTerm_some`, `TailOf.lastIndexOfTerm_none`: behind the last index of a term
  there is no entry of it, and a term without one is not in the log.
-/

namespace Raft

variable {ι : Type}

namespace RaftLog

section Index

variable {f i : Nat} {es : List (LogEntry ι)}

/-- **The last index of a term** is the one of its last entry. -/
theorem lastOfTerm_runsOf (hc : Contiguous f es) (term : Nat) :
    lastOfTerm term (f + es.length - 1) (runsOf es).reverse =
      (es.reverse.find? (·.term = term)).map (·.index) := by
  induction es using List.reverseRecOn with
  | nil => rfl
  | append_singleton es e ih =>
    have hidx := hc.index_concat
    obtain ⟨r, hr, hterm⟩ : ∃ r, (runsOf (es ++ [e])).getLast? = some r ∧ r.term = e.term := by
      have := getLast?_runsOf (es ++ [e])
      rw [List.getLast?_concat, Option.map_some, Option.map_eq_some_iff] at this
      exact this
    obtain ⟨older, holder⟩ : ∃ older, (runsOf (es ++ [e])).reverse = r :: older := by
      rw [List.getLast?_eq_head?_reverse] at hr
      exact ⟨_, List.eq_cons_of_mem_head? hr⟩
    by_cases heq : e.term = term
    · rw [holder, lastOfTerm, if_pos (hterm.trans heq)]
      simp [heq, hidx]
    · -- the new entry is passed over, with its run or within it
      have hskip : lastOfTerm term (f + (es ++ [e]).length - 1) (runsOf (es ++ [e])).reverse =
          lastOfTerm term (f + es.length - 1) (runsOf es).reverse := by
        rw [holder, lastOfTerm, if_neg (fun h => heq (hterm.symm.trans h))]
        rw [runsOf_concat] at hr holder
        split_ifs at hr holder with h
        · rw [holder, lastOfTerm, if_neg (fun h => heq (hterm.symm.trans h))]
        · rw [List.reverse_append] at holder
          obtain ⟨rfl, rfl⟩ := List.cons.inj holder
          simp only [hidx]
          rfl
      rw [hskip, ih hc.left]
      simp [heq]

theorem index_le_of_find? (hc : Contiguous f es) {q : LogEntry ι → Bool} {e e' : LogEntry ι}
    (h : es.reverse.find? q = some e) (he : e' ∈ es) (hq : q e' = true) : e'.index ≤ e.index := by
  obtain ⟨-, behind, before, hsplit, hnone⟩ := List.find?_eq_some_iff_append.mp h
  obtain rfl : es = before.reverse ++ e :: behind.reverse := by
    rw [← List.reverse_reverse es, hsplit]
    simp
  rcases List.mem_append.mp he with he | he
  · have := (hc.left.index_of_mem he).2.1
    have := hc.right.head?_index rfl
    omega
  · rcases List.mem_cons.mp he with rfl | he
    · exact le_rfl
    · have := hnone e' (List.mem_reverse.mp he)
      simp [hq] at this

end Index

section Wf

variable {rl : RaftLog ι} {i : Nat} (h : rl.Wf)

include h

theorem Wf.lastOfTerm_eq (t : Nat) : lastOfTerm t rl.last rl.runs.reverse =
    (rl.contents.reverse.find? (·.term = t)).map (·.index) := by
  rw [h.runs_eq]
  by_cases hnil : rl.contents = []
  · rw [hnil]
    rfl
  · have hlast := h.last_add_one hnil
    rw [← lastOfTerm_runsOf h.contiguous, ← hlast, Nat.add_sub_cancel]

/-- **Where a term begins**: as far down from an index as the log goes and the term does. -/
theorem Wf.termRunStart_spec (hf : rl.first ≠ 0) (hlo : rl.first ≤ i) (hhi : i ≤ rl.last) :
    ∃ t, rl.first ≤ rl.termRunStart i ∧ rl.termRunStart i ≤ i ∧
      (∀ j, rl.termRunStart i ≤ j → j ≤ i →
        rl.contents[j - rl.first]?.map (·.term) = some t) ∧
      (rl.first < rl.termRunStart i →
        rl.contents[rl.termRunStart i - 1 - rl.first]?.map (·.term) ≠ some t) := by
  have hlast := h.last_add_one (h.ne_nil_of_first hf)
  obtain ⟨r, hr, hspec⟩ := runFor_spec h.contiguous hlo (by omega)
  have hstart : rl.termRunStart i = r.start := by
    rw [termRunStart, h.runs_eq, hr]
    exact if_neg (by omega)
  rw [hstart]
  exact ⟨r.term, hspec⟩

theorem Wf.termRunStart_below (hi : rl.first = 0 ∨ i < rl.first) : rl.termRunStart i = 0 := by
  have hnone : runFor rl.runs i = none := by
    rw [runFor, List.getLast?_eq_none_iff, List.rdropWhile_eq_nil_iff]
    intro r hr
    rw [h.runs_eq] at hr
    have hstart := start_of_mem_runsOf h.contiguous hr
    rcases hi with hz | hlt
    · rw [h.first_eq_zero.mp hz] at hr
      simp at hr
    · simp
      omega
  rw [termRunStart, hnone]

end Wf

namespace TailOf

variable {rl : RaftLog ι} {hist : List Nat} {i t : Nat}

section

variable (h : rl.TailOf hist)

include h

theorem getElem?_contents (hf : rl.first ≠ 0) (hlo : rl.first ≤ i) :
    rl.contents[i - rl.first]?.map (·.term) = histTerm hist i := by
  have hne := h.wf.ne_nil_of_first hf
  have hlast := h.wf.last_add_one hne
  have hlen := h.lastLogIndex_of_first hf
  rcases Nat.lt_or_ge rl.last i with hout | hin
  · rw [List.getElem?_eq_none (by omega), histTerm, if_neg (by omega),
      List.getElem?_eq_none (by omega)]
    rfl
  · obtain ⟨e, he, rfl⟩ := h.wf.contiguous.exists_index hlo (by omega)
    rw [(h.wf.contiguous.index_of_mem he).2.2, Option.map_some, h.terms e he]

theorem termRunStart_spec (hf : rl.first ≠ 0) (hlo : rl.first ≤ i) (hhi : i ≤ rl.last) :
    rl.first ≤ rl.termRunStart i ∧ rl.termRunStart i ≤ i ∧
      (∀ j, rl.termRunStart i ≤ j → j ≤ i → histTerm hist j = histTerm hist i) ∧
      (rl.first < rl.termRunStart i → histTerm hist (rl.termRunStart i - 1) ≠ histTerm hist i) := by
  obtain ⟨t, hfirst, hle, hsame, hdiff⟩ := h.wf.termRunStart_spec hf hlo hhi
  have hterm : ∀ j, rl.termRunStart i ≤ j → j ≤ i → histTerm hist j = some t := fun j hj hj' => by
    rw [← h.getElem?_contents hf (by omega)]
    exact hsame j hj hj'
  refine ⟨hfirst, hle, fun j hj hj' => (hterm j hj hj').trans (hterm i hle le_rfl).symm, fun hgt => ?_⟩
  rw [hterm i hle le_rfl, ← h.getElem?_contents hf (by omega)]
  exact hdiff hgt

theorem exists_entry (hf : rl.first ≠ 0) (hlo : rl.first ≤ i) (ht : histTerm hist i = some t) :
    ∃ e ∈ rl.contents, e.index = i ∧ e.term = t := by
  have hlast := h.wf.last_add_one (h.wf.ne_nil_of_first hf)
  have hlen := h.lastLogIndex_of_first hf
  obtain ⟨e, he, rfl⟩ := h.wf.contiguous.exists_index hlo
    (by have := histTerm_bounds ht; omega)
  exact ⟨e, he, rfl, Option.some.inj ((h.terms e he).symm.trans ht)⟩

/-- **The last index of a term** in the log, or at the boundary of a log that holds nothing. -/
theorem lastIndexOfTerm_some (hi : rl.lastIndexOfTerm t = some i) :
    histTerm hist i = some t ∧ (∀ j, i < j → histTerm hist j ≠ some t) ∧
      rl.canDescribe i = true := by
  rw [lastIndexOfTerm, h.wf.lastOfTerm_eq] at hi
  cases hfind : rl.contents.reverse.find? (·.term = t) with
  | none =>
    -- no entry has the term: it is that of the snapshot
    simp only [hfind, Option.map_none] at hi
    split_ifs at hi with hb
    cases hi
    refine ⟨by rw [h.boundary (by omega), hb.2.2], fun j hj hcon => ?_, by simp [canDescribe]⟩
    have := histTerm_bounds hcon
    have := h.length_of_first hb.1
    omega
  | some e =>
    rw [hfind] at hi
    obtain rfl : e.index = i := Option.some.inj hi
    have he : e ∈ rl.contents := List.mem_reverse.mp (List.mem_of_find?_eq_some hfind)
    obtain rfl : e.term = t := by simpa using List.find?_some hfind
    have hf := (h.wf.first_pos (List.ne_nil_of_mem he)).ne'
    have hlast := h.wf.last_add_one (List.ne_nil_of_mem he)
    have hbounds := h.wf.contiguous.index_of_mem he
    refine ⟨h.terms e he, fun j hj hcon => ?_, ?_⟩
    · obtain ⟨e', he', rfl, hterm⟩ := h.exists_entry hf (by omega) hcon
      have := index_le_of_find? h.wf.contiguous hfind he' (by simpa using hterm)
      omega
    · have hin : rl.first ≠ 0 ∧ rl.first ≤ e.index ∧ e.index ≤ rl.last := ⟨hf, by omega, by omega⟩
      unfold canDescribe
      rw [if_neg (c := e.index = 0) (by omega), decide_eq_true hin, ite_self]

theorem lastIndexOfTerm_none (hnone : rl.lastIndexOfTerm t = none) (hf : rl.first ≠ 0)
    (hlo : rl.first ≤ i) : histTerm hist i ≠ some t := by
  rw [lastIndexOfTerm, h.wf.lastOfTerm_eq] at hnone
  cases hfind : rl.contents.reverse.find? (·.term = t) with
  | some e =>
    rw [hfind] at hnone
    cases hnone
  | none =>
    intro hcon
    obtain ⟨e, he, -, hterm⟩ := h.exists_entry hf hlo hcon
    simpa [hterm] using List.find?_eq_none.mp hfind e (List.mem_reverse.mpr he)

end

end TailOf

end RaftLog

end Raft
