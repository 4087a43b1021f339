import Raft.Log.Basic

/-!
# The run index describes the log

A log is a short sequence of runs of equal terms, and the overlay keeps only
where each run starts.  This module shows that the index built by `extendRuns`
is exactly that description and that the two truncations of the index follow
the truncations of the log.

## Main results

* `runFor_runsOf`: the lookup finds the term of the entry at an index.
* `truncateRunsFrom_runsOf`, `truncateRunsBelow_runsOf`: truncating the index is
  indexing the truncated log.
-/

namespace Raft

variable {ι : Type}

theorem exists_ends {α : Type} {l : List α} (h : l ≠ []) :
    ∃ a b, l.head? = some a ∧ l.getLast? = some b :=
  ⟨_, _, List.head?_eq_some_head h, List.getLast?_eq_some_getLast h⟩

/-- The entries carry the indices `f`, `f + 1`, and so on. -/
def Contiguous (f : Nat) (es : List (LogEntry ι)) : Prop :=
  ∀ k e, es[k]? = some e → e.index = f + k

namespace Contiguous

variable {f : Nat} {es es' : List (LogEntry ι)} {e : LogEntry ι}

theorem nil (f : Nat) : Contiguous f ([] : List (LogEntry ι)) := by
  intro k e h
  simp at h

theorem singleton (e : LogEntry ι) : Contiguous e.index [e] := by
  intro k e' h
  obtain ⟨hk, rfl⟩ := List.getElem?_eq_some_iff.mp h
  simp only [List.length_singleton, Nat.lt_one_iff] at hk
  simp [hk]

theorem append (h : Contiguous f es) (h' : Contiguous (f + es.length) es') :
    Contiguous f (es ++ es') := by
  intro k e hk
  rw [List.getElem?_append] at hk
  split_ifs at hk with hlt
  · exact h k e hk
  · have := h' _ e hk
    omega

theorem left (h : Contiguous f (es ++ es')) : Contiguous f es := by
  intro k e hk
  refine h k e ?_
  rw [List.getElem?_append_left (List.getElem?_eq_some_iff.mp hk).1]
  exact hk

theorem index_concat (h : Contiguous f (es ++ [e])) : e.index = f + es.length :=
  h es.length e (by simp)

theorem before (h : Contiguous (f + 1) (es ++ es')) :
    es = [] ∨ ∃ es₀ e, es = es₀ ++ [e] ∧ e.index = f + es.length := by
  rcases List.eq_nil_or_concat' es with hnil | ⟨es₀, e, rfl⟩
  · exact .inl hnil
  · refine .inr ⟨es₀, e, rfl, ?_⟩
    rw [h.left.index_concat, List.length_append, List.length_singleton]
    omega

section

variable (h : Contiguous f es)

include h

theorem take (k : Nat) : Contiguous f (es.take k) := by
  intro j e hj
  rw [List.getElem?_take] at hj
  split_ifs at hj
  exact h j e hj

theorem drop (k : Nat) : Contiguous (f + k) (es.drop k) := by
  intro j e hj
  rw [List.getElem?_drop] at hj
  have := h _ e hj
  omega

theorem index_of_mem (he : e ∈ es) :
    f ≤ e.index ∧ e.index < f + es.length ∧ es[e.index - f]? = some e := by
  obtain ⟨k, hk⟩ := List.mem_iff_getElem?.mp he
  have hidx := h k e hk
  have hlt := (List.getElem?_eq_some_iff.mp hk).1
  refine ⟨by omega, by omega, ?_⟩
  rw [show e.index - f = k by omega]
  exact hk

theorem head?_index (he : es.head? = some e) : e.index = f := by
  rw [List.head?_eq_getElem?] at he
  simpa using h 0 e he

theorem getLast?_index (he : es.getLast? = some e) : e.index + 1 = f + es.length := by
  have hne : es ≠ [] := by
    rintro rfl
    simp at he
  rw [List.getLast?_eq_getElem?] at he
  have := h _ e he
  have := List.length_pos_of_ne_nil hne
  omega

theorem ends (hne : es ≠ []) :
    ∃ e e', es.head? = some e ∧ es.getLast? = some e' ∧ e.index = f ∧
      e'.index + 1 = f + es.length := by
  obtain ⟨e, e', he, he'⟩ := exists_ends hne
  exact ⟨e, e', he, he', h.head?_index he, h.getLast?_index he'⟩

end

end Contiguous

namespace RaftLog

/-- The index of a log: its terms, run by run. -/
def runsOf (es : List (LogEntry ι)) : List TermRun := extendRuns [] es

@[simp] theorem runsOf_nil : runsOf ([] : List (LogEntry ι)) = [] := rfl

theorem extendRuns_runsOf (es es' : List (LogEntry ι)) :
    extendRuns (runsOf es) es' = runsOf (es ++ es') := by
  simp [runsOf, extendRuns, List.foldl_append]

theorem runsOf_concat (es : List (LogEntry ι)) (e : LogEntry ι) :
    runsOf (es ++ [e]) =
      if (runsOf es).getLast?.any (·.term = e.term) then runsOf es
      else runsOf es ++ [⟨e.index, e.term⟩] := by
  rw [← extendRuns_runsOf]
  rfl

theorem getLast?_runsOf (es : List (LogEntry ι)) :
    (runsOf es).getLast?.map (·.term) = es.getLast?.map (·.term) := by
  induction es using List.reverseRecOn with
  | nil => rfl
  | append_singleton es e ih =>
    rw [runsOf_concat]
    split_ifs with h
    · obtain ⟨r, hr, hterm⟩ : ∃ r, (runsOf es).getLast? = some r ∧ r.term = e.term := by
        simpa [Option.any_eq_true] using h
      simp [hr, hterm]
    · simp

theorem runsOf_ne_nil {es : List (LogEntry ι)} (h : es ≠ []) : runsOf es ≠ [] := by
  intro hnil
  have := getLast?_runsOf es
  rw [hnil] at this
  simp [List.getLast?_eq_none_iff] at this
  exact h (by simpa using this.symm)

theorem any_getLast?_runsOf (es : List (LogEntry ι)) (t : Nat) :
    (runsOf es).getLast?.any (·.term = t) = es.getLast?.any (·.term = t) := by
  have h := getLast?_runsOf es
  cases h₁ : (runsOf es).getLast? <;> cases h₂ : es.getLast? <;> simp_all

theorem start_of_mem_runsOf {f : Nat} {es : List (LogEntry ι)} (hc : Contiguous f es)
    {r : TermRun} (hr : r ∈ runsOf es) : f ≤ r.start ∧ r.start < f + es.length := by
  induction es using List.reverseRecOn with
  | nil => simp at hr
  | append_singleton es e ih =>
    have hidx := hc.index_concat
    rw [runsOf_concat] at hr
    simp only [List.length_append, List.length_singleton]
    split_ifs at hr with h
    · have := ih hc.left hr
      omega
    · rcases List.mem_append.mp hr with hr | hr
      · have := ih hc.left hr
        omega
      · rw [List.mem_singleton] at hr
        subst hr
        simp only
        omega

/-! ## Dropping from the right -/

theorem rdropWhile_eq_self_of_forall {α : Type} {p : α → Bool} {l : List α}
    (h : ∀ a ∈ l, p a = false) : l.rdropWhile p = l := by
  rw [List.rdropWhile_eq_self_iff]
  intro hne
  simp [h _ (List.getLast_mem hne)]

theorem rtakeWhile_eq_nil_of_forall {α : Type} {p : α → Bool} {l : List α}
    (h : ∀ a ∈ l, p a = false) : l.rtakeWhile p = [] := by
  induction l using List.reverseRecOn with
  | nil => rfl
  | append_singleton l a => simp [h a (by simp)]

/-! ## The index follows the log -/

section Index

variable {f i : Nat} {es : List (LogEntry ι)}

section

variable (hc : Contiguous f es)

include hc

theorem none_after (hi : f + es.length ≤ i + 1) :
    ∀ r ∈ runsOf es, decide (i < r.start) = false := by
  intro r hr
  have := (start_of_mem_runsOf hc hr).2
  simp
  omega

theorem runFor_last (hi : f + es.length ≤ i + 1) : runFor (runsOf es) i = (runsOf es).getLast? := by
  rw [runFor, rdropWhile_eq_self_of_forall (none_after hc hi)]

/-- **The run found for an index** reaches down from there as far as the term does. -/
theorem runFor_spec (hlo : f ≤ i) (hhi : i < f + es.length) :
    ∃ r, runFor (runsOf es) i = some r ∧ f ≤ r.start ∧ r.start ≤ i ∧
      (∀ j, r.start ≤ j → j ≤ i → es[j - f]?.map (·.term) = some r.term) ∧
      (f < r.start → es[r.start - 1 - f]?.map (·.term) ≠ some r.term) := by
  induction es using List.reverseRecOn generalizing i with
  | nil => simp at hhi; omega
  | append_singleton es e ih =>
    have hidx := hc.index_concat
    have hleft : ∀ {j : Nat}, f ≤ j → j < f + es.length → (es ++ [e])[j - f]? = es[j - f]? :=
      fun hj hj' => List.getElem?_append_left (by omega)
    rw [List.length_append, List.length_singleton] at hhi
    rcases Nat.lt_or_ge i (f + es.length) with hlt | hge
    · -- an index below the new entry never sees the run that entry may open
      obtain ⟨r, hr, hfirst, hle, hsame, hdiff⟩ := ih hc.left hlo hlt
      refine ⟨r, ?_, hfirst, hle, fun j hj hj' => ?_, fun hgt => ?_⟩
      · rw [runsOf_concat]
        split_ifs with h
        · exact hr
        · rw [runFor, List.rdropWhile_concat_pos _ _ _ (by simp; omega)]
          exact hr
      · rw [hleft (by omega) (by omega)]
        exact hsame j hj hj'
      · rw [hleft (by omega) (by omega)]
        exact hdiff hgt
    · obtain rfl : i = e.index := by omega
      have hlast : (es ++ [e])[e.index - f]? = some e := by
        rw [show e.index - f = es.length by omega]
        simp
      rw [runFor_last hc (by simp; omega), runsOf_concat]
      split_ifs with h
      · -- the entry goes on with the newest run, which the entry before it belongs to
        obtain ⟨r, hr, hterm⟩ : ∃ r, (runsOf es).getLast? = some r ∧ r.term = e.term := by
          simpa [Option.any_eq_true] using h
        have hne : es ≠ [] := by
          rintro rfl
          simp at hr
        have hpos := List.length_pos_of_ne_nil hne
        obtain ⟨r', hr', hfirst, hle, hsame, hdiff⟩ :=
          ih (i := f + es.length - 1) hc.left (by omega) (by omega)
        rw [runFor_last hc.left (by omega), hr] at hr'
        cases hr'
        refine ⟨r, hr, hfirst, by omega, fun j hj hj' => ?_, fun hgt => ?_⟩
        · rcases Nat.lt_or_ge j e.index with hjlt | hjge
          · rw [hleft (by omega) (by omega)]
            exact hsame j hj (by omega)
          · obtain rfl : j = e.index := by omega
            rw [hlast, Option.map_some, hterm]
        · rw [hleft (by omega) (by omega)]
          exact hdiff hgt
      · refine ⟨⟨e.index, e.term⟩, by simp, hlo, le_rfl, fun j hj hj' => ?_, fun hgt hcon => h ?_⟩
        · obtain rfl : j = e.index := Nat.le_antisymm hj' hj
          rw [hlast, Option.map_some]
        · -- the entry before it has another term
          have hpos : 0 < es.length := by
            simp only at hgt
            omega
          rw [any_getLast?_runsOf, List.getLast?_eq_getElem?]
          simp only at hcon
          rw [hleft (by omega) (by omega),
            show e.index - 1 - f = es.length - 1 by omega] at hcon
          obtain ⟨x, hx, hxterm⟩ := Option.map_eq_some_iff.mp hcon
          simp [hx, hxterm]

/-- **The lookup is right**: the run found for an index carries the term of the
entry there. -/
theorem runFor_runsOf (hlo : f ≤ i) (hhi : i < f + es.length) :
    (runFor (runsOf es) i).map (·.term) = es[i - f]?.map (·.term) := by
  obtain ⟨r, hr, -, hle, hsame, -⟩ := runFor_spec hc hlo hhi
  rw [hr, hsame i hle le_rfl, Option.map_some]

theorem truncateRunsFrom_runsOf (hlo : f ≤ i) (hhi : i ≤ f + es.length) :
    truncateRunsFrom (runsOf es) i = runsOf (es.take (i - f)) := by
  induction es using List.reverseRecOn with
  | nil => simp [truncateRunsFrom]
  | append_singleton es e ih =>
    have hidx := hc.index_concat
    -- nothing is cut, or the last entry goes
    rcases Nat.lt_or_ge (f + es.length) i with hlt | hge
    · have hall : ∀ r ∈ runsOf (es ++ [e]), decide (i ≤ r.start) = false := by
        intro r hr
        have := none_after (i := i - 1) hc (by simp; omega) r hr
        simp at this ⊢
        omega
      rw [truncateRunsFrom, rdropWhile_eq_self_of_forall hall, List.take_of_length_le (by simp; omega)]
    · rw [List.take_append_of_le_length (by omega), ← ih hc.left hge, runsOf_concat]
      split_ifs with h
      · rfl
      · rw [truncateRunsFrom, List.rdropWhile_concat_pos _ _ _ (by simp; omega), truncateRunsFrom]

end

theorem truncateRunsBelow_runsOf_last {e : LogEntry ι} (hc : Contiguous f (es ++ [e])) :
    truncateRunsBelow (runsOf (es ++ [e])) e.index = [⟨e.index, e.term⟩] := by
  have hend : f + (es ++ [e]).length ≤ e.index + 1 := by
    rw [hc.index_concat]
    simp [Nat.add_assoc]
  have hterm := getLast?_runsOf (es ++ [e])
  rw [List.getLast?_concat, Option.map_some] at hterm
  obtain ⟨r, hr, hrt⟩ := Option.map_eq_some_iff.mp hterm
  rw [truncateRunsBelow, runFor_last hc hend, hr,
    rtakeWhile_eq_nil_of_forall (none_after hc hend), ← hrt]

theorem truncateRunsBelow_runsOf (hc : Contiguous f es) (hlo : f ≤ i) (hhi : i < f + es.length) :
    truncateRunsBelow (runsOf es) i = runsOf (es.drop (i - f)) := by
  induction es using List.reverseRecOn with
  | nil => simp at hhi; omega
  | append_singleton es e ih =>
    have hidx := hc.index_concat
    rw [List.length_append, List.length_singleton] at hhi
    -- the last entry keeps its run unless it is all that is left
    rcases Nat.lt_or_ge i (f + es.length) with hlt | hge
    · have hlast : (es.drop (i - f)).getLast? = es.getLast? := by
        rw [List.getLast?_drop, if_neg (by omega)]
      rw [List.drop_append_of_le_length (by omega), runsOf_concat, runsOf_concat,
        any_getLast?_runsOf, any_getLast?_runsOf, hlast, ← ih hc.left hlt]
      split_ifs with h
      · rfl
      · have hstart : decide (i < (⟨e.index, e.term⟩ : TermRun).start) = true := by
          simp
          omega
        rw [truncateRunsBelow, truncateRunsBelow, runFor,
          List.rdropWhile_concat_pos (fun r : TermRun => decide (i < r.start)) _ _ hstart, runFor,
          List.rtakeWhile_concat_pos (fun r : TermRun => decide (i < r.start)) _ _ hstart]
        cases hrun : ((runsOf es).rdropWhile fun r => decide (i < r.start)).getLast? with
        | none =>
          have := runFor_runsOf hc.left hlo hlt
          rw [runFor, hrun] at this
          simp at this
          omega
        | some r => simp
    · have hi : i = e.index := by omega
      rw [hi, truncateRunsBelow_runsOf_last hc, show e.index - f = es.length by omega]
      simp [runsOf, extendRuns]

end Index

end RaftLog

end Raft
