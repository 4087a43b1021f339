import Raft.Log.Queue

/-!
# Unstable segments and what storage holds

The overlay keeps an entry in memory until the write that carries it has been
reported.  `RaftLog.Holds s` says of an entry that storage has it at every point
of the queue from write `s` on.  `RaftLog.Segmented` says that the contents of the
log are a part that storage holds already, followed by the segments, each of which
storage holds from its own write on.

## Main results

* `Segmented.append`, `Segmented.suffixCut`, `Segmented.prefixCut`,
  `Segmented.stabilize`, `Segmented.execute`: the operations keep it.
* `Segmented.entries_eq`: reading a range of the log finds its entries, wherever
  they are.
-/

namespace Raft

variable {ι : Type}

/-! ## Contiguous entries by index -/

namespace Contiguous

variable {f i : Nat} {es es' : List (LogEntry ι)} {e e' : LogEntry ι}

theorem right (h : Contiguous f (es ++ es')) : Contiguous (f + es.length) es' := by
  have := h.drop es.length
  rwa [List.drop_left] at this

section

variable (h : Contiguous f es)

include h

theorem eq_of_index (he : e ∈ es) (he' : e' ∈ es) (hidx : e.index = e'.index) : e = e' := by
  have h1 := (h.index_of_mem he).2.2
  have h2 := (h.index_of_mem he').2.2
  rw [hidx] at h1
  exact Option.some.inj (h1.symm.trans h2)

theorem exists_index (hlo : f ≤ i) (hhi : i < f + es.length) : ∃ e ∈ es, e.index = i := by
  have hlt : i - f < es.length := by omega
  refine ⟨es[i - f], List.getElem_mem hlt, ?_⟩
  have := h (i - f) _ (List.getElem?_eq_getElem hlt)
  omega

theorem split_at_index (i : Nat) :
    (∀ e ∈ es.take (i - f), e.index < i) ∧ ∀ e ∈ es.drop (i - f), i ≤ e.index := by
  refine ⟨fun e he => ?_, fun e he => ?_⟩
  · have hlt := ((h.take (i - f)).index_of_mem he).2.1
    have hle := (h.index_of_mem (List.mem_of_mem_take he)).1
    rw [List.length_take] at hlt
    omega
  · have hge := ((h.drop (i - f)).index_of_mem he).1
    omega

theorem filter_lt : es.filter (·.index < i) = es.take (i - f) := by
  obtain ⟨hlt, hge⟩ := h.split_at_index i
  nth_rewrite 1 [← List.take_append_drop (i - f) es]
  rw [List.filter_append, List.filter_eq_self.mpr (by simpa using hlt),
    List.filter_eq_nil_iff.mpr (by simpa using hge), List.append_nil]

theorem filter_ge : es.filter (i ≤ ·.index) = es.drop (i - f) := by
  obtain ⟨hlt, hge⟩ := h.split_at_index i
  nth_rewrite 1 [← List.take_append_drop (i - f) es]
  rw [List.filter_append, List.filter_eq_nil_iff.mpr (by simpa using hlt),
    List.filter_eq_self.mpr (by simpa using hge), List.nil_append]

end

theorem eq_of_subset {big a b : List (LogEntry ι)} {g : Nat} (hbig : Contiguous f big)
    (ha : Contiguous g a) (hb : Contiguous g b) (hlen : a.length = b.length) (hsub : a ⊆ big)
    (hsub' : b ⊆ big) : a = b := by
  refine List.ext_getElem hlen fun k hk hk' => ?_
  refine hbig.eq_of_index (hsub (List.getElem_mem hk)) (hsub' (List.getElem_mem hk')) ?_
  rw [ha k _ (List.getElem?_eq_getElem hk), hb k _ (List.getElem?_eq_getElem hk')]

end Contiguous

namespace RaftLog

/-! ## Segments as one stretch of the log -/

variable {es : List (LogEntry ι)} {op : WriteOp ι}

section Segs

variable {f i lo hi : Nat} {segs : List (UnstableSeg ι)}

def flat (segs : List (UnstableSeg ι)) : List (LogEntry ι) := segs.flatMap (·.entries)

@[simp] theorem flat_nil : flat ([] : List (UnstableSeg ι)) = [] := rfl

@[simp] theorem flat_cons (s : UnstableSeg ι) : flat (s :: segs) = s.entries ++ flat segs := rfl

@[simp] theorem flat_append (segs' : List (UnstableSeg ι)) :
    flat (segs ++ segs') = flat segs ++ flat segs' :=
  List.flatMap_append

/-- What is left of segments when only some entries are kept. -/
def trim (p : LogEntry ι → Bool) (segs : List (UnstableSeg ι)) : List (UnstableSeg ι) :=
  (segs.map fun s => { s with entries := s.entries.filter p }).filter (!·.entries.isEmpty)

section Trim

variable {p : LogEntry ι → Bool} {s : UnstableSeg ι}

theorem trim_cons_of_nil (h : s.entries.filter p = []) : trim p (s :: segs) = trim p segs := by
  simp [trim, List.map_cons, h]

theorem trim_cons_of_ne_nil (h : s.entries.filter p ≠ []) :
    trim p (s :: segs) = { s with entries := s.entries.filter p } :: trim p segs := by
  rw [trim, List.map_cons, List.filter_cons_of_pos (by simpa using h), trim]

theorem flat_trim : flat (trim p segs) = (flat segs).filter p := by
  induction segs with
  | nil => rfl
  | cons s rest ih =>
    rw [flat_cons, List.filter_append, ← ih]
    by_cases h : s.entries.filter p = []
    · rw [trim_cons_of_nil h, h, List.nil_append]
    · rw [trim_cons_of_ne_nil h, flat_cons]

theorem trim_eq_self (hne : ∀ s ∈ segs, s.entries ≠ []) (h : ∀ s ∈ segs, ∀ e ∈ s.entries, p e) :
    trim p segs = segs := by
  have hmap : segs.map (fun s => { s with entries := s.entries.filter p }) = segs :=
    List.map_congr_left (fun s hs => by rw [List.filter_eq_self.mpr (h s hs)]) |>.trans
      (List.map_id' segs)
  rw [trim, hmap, List.filter_eq_self]
  exact fun s hs => by simpa using hne s hs

theorem exists_of_mem_trim (h : s ∈ trim p segs) :
    s.entries ≠ [] ∧ ∃ t ∈ segs, s.seq = t.seq ∧ s.entries = t.entries.filter p := by
  obtain ⟨h, hne⟩ := List.mem_filter.mp h
  obtain ⟨t, ht, rfl⟩ := List.mem_map.mp h
  exact ⟨by simpa using hne, t, ht, rfl, rfl⟩

theorem seqs_trim : ((trim p segs).map (·.seq)).Sublist (segs.map (·.seq)) := by
  refine (List.filter_sublist.map _).trans ?_
  rw [List.map_map]
  exact List.Sublist.refl _

end Trim

theorem dropSegsFrom_eq (h : Contiguous f (flat segs.reverse)) (hne : ∀ s ∈ segs, s.entries ≠ []) :
    dropSegsFrom i segs = trim (·.index < i) segs := by
  induction segs with
  | nil => rfl
  | cons s older ih =>
    rw [List.reverse_cons, flat_append, flat_cons, flat_nil, List.append_nil] at h
    obtain ⟨hs, hne⟩ := List.forall_mem_cons.mp hne
    obtain ⟨e, e', hhead, hlast, hidx, hidx'⟩ := h.right.ends hs
    simp only [dropSegsFrom, hhead, hlast]
    by_cases hlo : i ≤ e.index
    · rw [if_pos hlo, trim_cons_of_nil, ih h.left hne]
      rw [h.right.filter_lt, show i - _ = 0 by omega, List.take_zero]
    -- the older segments lie below the one that is cut
    have holder : trim (·.index < i) older = older := trim_eq_self hne fun t ht e'' he'' => by
      have := (h.left.index_of_mem (List.mem_flatMap.mpr ⟨t, List.mem_reverse.mpr ht, he''⟩)).2.1
      simp only [decide_eq_true_eq]
      omega
    have htake := h.right.filter_lt (i := i)
    rw [if_neg hlo, trim_cons_of_ne_nil, holder, htake, ← hidx]
    · split_ifs with hhi
      · rfl
      · rw [List.take_of_length_le (by omega)]
    · rw [htake, Ne, List.take_eq_nil_iff, not_or]
      exact ⟨by omega, hs⟩

theorem dropSegsBelow_eq (h : Contiguous f (flat segs)) (hne : ∀ s ∈ segs, s.entries ≠ []) :
    dropSegsBelow i segs = trim (i ≤ ·.index) segs := by
  induction segs generalizing f with
  | nil => rfl
  | cons s newer ih =>
    rw [flat_cons] at h
    obtain ⟨hs, hne⟩ := List.forall_mem_cons.mp hne
    obtain ⟨e, e', hhead, hlast, hidx, hidx'⟩ := h.left.ends hs
    have hlen := List.length_pos_of_ne_nil hs
    simp only [dropSegsBelow, hhead, hlast]
    by_cases hlo : e'.index < i
    · rw [if_pos hlo, trim_cons_of_nil, ih h.right hne]
      rw [h.left.filter_ge, List.drop_of_length_le (by omega)]
    have hnewer : trim (i ≤ ·.index) newer = newer := trim_eq_self hne fun t ht e'' he'' => by
      have := (h.right.index_of_mem (List.mem_flatMap.mpr ⟨t, ht, he''⟩)).1
      simp only [decide_eq_true_eq]
      omega
    rw [if_neg hlo, trim_cons_of_ne_nil, hnewer, h.left.filter_ge, ← hidx]
    · split_ifs with hhi
      · rfl
      · rw [show i - e.index = 0 by omega, List.drop_zero]
    · rw [h.left.filter_ge, Ne, List.drop_eq_nil_iff]
      omega

theorem sliceSegs_eq (h : Contiguous f (flat segs)) (hne : ∀ s ∈ segs, s.entries ≠ [])
    (hle : lo ≤ hi) : sliceSegs lo hi segs = ((flat segs).drop (lo - f)).take (hi - max lo f) := by
  induction segs generalizing f with
  | nil => simp [sliceSegs]
  | cons s newer ih =>
    rw [flat_cons] at h ⊢
    obtain ⟨hs, hne⟩ := List.forall_mem_cons.mp hne
    obtain ⟨e, e', hhead, hlast, hidx, hidx'⟩ := h.left.ends hs
    simp only [sliceSegs, hhead, hlast]
    split_ifs with hlo hhi
    · rw [ih h.right hne, List.drop_append, List.drop_of_length_le (l := s.entries) (by omega),
        List.nil_append, show lo - f - s.entries.length = lo - (f + s.entries.length) by omega,
        show max lo (f + s.entries.length) = max lo f by omega]
    · rw [show hi - max lo f = 0 by omega, List.take_zero]
    · rw [ih h.right hne, List.drop_append_of_le_length (by omega), List.take_append, List.length_drop,
        show lo - (f + s.entries.length) = 0 by omega, List.drop_zero, List.drop_take, hidx,
        show max lo f - f = lo - f by omega]
      congr 1
      · rcases Nat.le_total hi (e'.index + 1) with hupper | hupper
        · congr 1
          omega
        · rw [List.take_of_length_le, List.take_of_length_le] <;>
            (rw [List.length_drop]; omega)
      · congr 1
        omega

end Segs

/-! ## What storage holds -/

section From

variable {rl rl' : RaftLog ι} {s s' : Nat} {P Q : Store ι → Prop}

/-- Storage is as `P` says at every point of the queue from the write `s` on. -/
def From (rl : RaftLog ι) (s : Nat) (P : Store ι → Prop) : Prop :=
  ∀ k st, (∀ op ∈ rl.w.queue.drop k, s < op.seq) → rl.stage k = some st → P st

namespace From

theorem congr (h : rl.From s P) (hqueue : rl'.w.queue = rl.w.queue)
    (hstage : ∀ k, rl'.stage k = rl.stage k) : rl'.From s P := by
  intro k st hk hst
  rw [hqueue] at hk
  rw [hstage] at hst
  exact h k st hk hst

theorem settled (h : rl.From s P) {st : Store ι} (hst : rl.settled = some st) : P st :=
  h rl.w.queue.length st (by simp) (by rw [stage_of_length_le rl le_rfl, hst])

theorem of_lt (h : rl.From s P) (hlt : ∀ op ∈ rl.w.queue, s < op.seq) (s' : Nat) : rl.From s' P :=
  fun k st _ hst => h k st (fun op hop => hlt op (List.mem_of_mem_drop hop)) hst

theorem at_end (hle : ∀ op ∈ rl.w.queue, op.seq ≤ s) (h : ∀ st, rl.settled = some st → P st) :
    rl.From s P := by
  intro k st hk hst
  have hdrop : rl.w.queue.drop k = [] := by
    rw [List.eq_nil_iff_forall_not_mem]
    intro op hop
    have h1 := hk op hop
    have h2 := hle op (List.mem_of_mem_drop hop)
    omega
  rw [stage_of_length_le rl (List.drop_eq_nil_iff.mp hdrop)] at hst
  exact h st hst

theorem enqueue (h : rl.From s P) (hclosed : rl.w.closed = false) (hw : rl'.w = rl.w.enqueue op)
    (hkeep : ∀ st st', rl.settled = some st → st.exec rl.w.commits op.kind = some st' → P st →
      P st') : rl'.From s P := by
  intro k st hk hst
  rw [stage_of_enqueue hclosed hw] at hst
  split_ifs at hst with hle
  · refine h k st (fun op' hop' => hk op' ?_) hst
    rw [hw, queue_enqueue hclosed, List.drop_append_of_le_length hle]
    exact List.mem_append_left _ hop'
  · rw [settled_of_enqueue hclosed hw, Option.bind_eq_some_iff] at hst
    obtain ⟨st₀, hst₀, hexec⟩ := hst
    exact hkeep st₀ st hst₀ hexec (h.settled hst₀)

theorem execute (h : rl.From s P) (hwf : rl.Wf) : (rl.execute none).From s P := by
  intro k st hk hst
  obtain ⟨st₀, -, hw⟩ := hwf.exists_execute
  rw [hwf.stage_execute] at hst
  rw [hw, List.drop_drop] at hk
  exact h _ st hk hst

theorem of_fresh {st : Store ι} (h : Fresh st rl) (hst : P st) : rl.From s P := by
  intro k st' _ hst'
  rw [stage, h.queue, List.take_nil, h.storage] at hst'
  cases hst'
  exact hst

end From

end From

/-- Storage holds the entry at every point of the queue behind which only writes
after `s` are left. -/
def Holds (rl : RaftLog ι) (s : Nat) (e : LogEntry ι) : Prop :=
  ∀ k st, (∀ op ∈ rl.w.queue.drop k, s < op.seq) → rl.stage k = some st → e ∈ st.entries

/-- The contents are what storage holds, and segments that it holds from their writes on. -/
structure Segmented (rl : RaftLog ι) : Prop where
  split : ∃ stable, rl.contents = stable ++ flat rl.segs ∧ ∀ e ∈ stable, rl.Holds 0 e
  held : ∀ s ∈ rl.segs, s.entries ≠ [] ∧ ∀ e ∈ s.entries, rl.Holds s.seq e
  segs_sorted : (rl.segs.map (·.seq)).Pairwise (· < ·)
  segs_le : ∀ s ∈ rl.segs, s.seq ≤ rl.nextSeq
  queue_sorted : (rl.w.queue.map (·.seq)).Pairwise (· < ·)
  queue_le : ∀ op ∈ rl.w.queue, 0 < op.seq ∧ op.seq ≤ rl.nextSeq
  done_lt : ∀ d ∈ rl.w.done, d.seq ≤ rl.nextSeq ∧ ∀ op ∈ rl.w.queue, d.seq < op.seq

section Holds

variable {rl rl' : RaftLog ι} {s s' : Nat} {e : LogEntry ι}

theorem Holds.congr (h : rl.Holds s e) (hw : rl'.w = rl.w) : rl'.Holds s e :=
  From.congr h (by rw [hw]) fun k => by rw [stage, stage, hw]

theorem Holds.enqueue (h : rl.Holds s e) (hclosed : rl.w.closed = false)
    (hw : rl'.w = rl.w.enqueue op)
    (hkeep : ∀ st st', rl.settled = some st → st.exec rl.w.commits op.kind = some st' →
      e ∈ st.entries → e ∈ st'.entries) : rl'.Holds s e :=
  From.enqueue h hclosed hw hkeep

theorem holds_nextSeq (hle : ∀ op ∈ rl.w.queue, op.seq ≤ s) (he : e ∈ rl.contents) :
    rl.Holds s e :=
  From.at_end hle fun st hst => by rwa [contents_of_settled hst] at he

theorem Holds.mem_storage (h : rl.Holds 0 e) (hpos : ∀ op ∈ rl.w.queue, 0 < op.seq) :
    e ∈ rl.w.storage.entries :=
  h 0 rl.w.storage (fun op hop => hpos op (List.mem_of_mem_drop hop)) (by simp [stage])

end Holds

theorem append_fields [Sized ι] (rl : RaftLog ι) (hne : es ≠ []) :
    ∃ op rl', (rl.append es).2 = rl' ∧ rl'.w = rl.w.enqueue op ∧ op.seq = rl.nextSeq + 1 ∧
      op.kind = .append es ∧ rl'.segs = rl.segs ++ [⟨rl.nextSeq + 1, es⟩] ∧
      rl'.nextSeq = rl.nextSeq + 1 := by
  obtain ⟨e, e', he, he'⟩ := exists_ends hne
  exact ⟨⟨rl.nextSeq + 1, .append es, e'.index⟩, _, rfl, by rw [append_eq he he'], rfl, rfl,
    by rw [append_eq he he'], by rw [append_eq he he']⟩

theorem pairwise_concat {l : List Nat} {a : Nat} (h : l.Pairwise (· < ·)) (ha : ∀ b ∈ l, b < a) :
    (l ++ [a]).Pairwise (· < ·) :=
  List.pairwise_append.mpr ⟨h, List.pairwise_singleton _ _, fun b hb c hc => by
    rw [List.mem_singleton.mp hc]
    exact ha b hb⟩

namespace Segmented

variable {rl rl' : RaftLog ι}

section

variable (h : rl.Segmented)

include h

theorem pos : ∀ op ∈ rl.w.queue, 0 < op.seq := fun op hop => (h.queue_le op hop).1

section

variable (hclosed : rl.w.closed = false)

include hclosed

theorem numbered : rl.Numbered [] :=
  ⟨hclosed, h.queue_sorted, fun op hop => (h.queue_le op hop).2, by simpa using h.done_lt⟩

theorem queue_of_enqueue (hw : rl'.w = rl.w.enqueue op) (hseq : op.seq = rl.nextSeq + 1)
    (hnext : rl'.nextSeq = rl.nextSeq + 1) :
    (rl'.w.queue.map (·.seq)).Pairwise (· < ·) ∧
      (∀ op ∈ rl'.w.queue, 0 < op.seq ∧ op.seq ≤ rl'.nextSeq) ∧
      ∀ d ∈ rl'.w.done, d.seq ≤ rl'.nextSeq ∧ ∀ op ∈ rl'.w.queue, d.seq < op.seq := by
  have hq : rl.Queues rl' [op] := ⟨hw.trans (queue_enqueue hclosed), by simp [hseq], hnext⟩
  have hnum := (h.numbered hclosed).queues hq
  refine ⟨hnum.sorted, fun op' hop' => ⟨?_, hnum.le op' hop'⟩, by simpa using hnum.done⟩
  rw [hq.w] at hop'
  rcases List.mem_append.mp hop' with hop' | hop'
  · exact h.pos op' hop'
  · exact Nat.zero_lt_of_lt (hq.seq_mem hop').1

theorem of_cut (hw : rl'.w = rl.w.enqueue op) (hseq : op.seq = rl.nextSeq + 1)
    (hnext : rl'.nextSeq = rl.nextSeq + 1) (p : LogEntry ι → Bool)
    (hcontents : rl'.contents = rl.contents.filter p) (hsegs : rl'.segs = trim p rl.segs) :
    rl'.Segmented := by
  have hkeep : ∀ e s, p e = true → rl.Holds s e → rl'.Holds s e := fun e s hp hs => by
    refine hs.enqueue hclosed hw fun st st' hst hexec he => ?_
    have hst' : rl'.settled = some st' := by
      rw [settled_of_enqueue hclosed hw, hst, Option.bind_some, hexec]
    rw [← contents_of_settled hst', hcontents, contents_of_settled hst]
    exact List.mem_filter.mpr ⟨he, hp⟩
  obtain ⟨hsorted, hle, hdone⟩ := h.queue_of_enqueue hclosed hw hseq hnext
  refine ⟨?_, ?_, by rw [hsegs]; exact h.segs_sorted.sublist seqs_trim, ?_, hsorted, hle, hdone⟩
  · obtain ⟨stable, hsplit, hstable⟩ := h.split
    refine ⟨stable.filter p, by rw [hcontents, hsplit, List.filter_append, hsegs, flat_trim], ?_⟩
    intro e he
    obtain ⟨he, hp⟩ := List.mem_filter.mp he
    exact hkeep e 0 hp (hstable e he)
  · intro s' hs'
    obtain ⟨hne, s, hs, hseq', hentries⟩ := exists_of_mem_trim (hsegs ▸ hs')
    refine ⟨hne, fun e he => ?_⟩
    obtain ⟨he, hp⟩ := List.mem_filter.mp (hentries ▸ he)
    rw [hseq']
    exact hkeep e s.seq hp ((h.held s hs).2 e he)
  · intro s' hs'
    obtain ⟨-, s, hs, hseq', -⟩ := exists_of_mem_trim (hsegs ▸ hs')
    have := h.segs_le s hs
    omega

theorem enqueue_frame {kind : WriteKind ι} (hc : (rl.enqueue kind).contents = rl.contents) :
    (rl.enqueue kind).Segmented := by
  refine h.of_cut hclosed rfl rfl rfl (fun _ => true) (by simp [hc]) ?_
  exact (trim_eq_self (fun s hs => (h.held s hs).1) fun _ _ _ _ => rfl).symm

end

theorem contiguous_flat (hwf : rl.Wf) : ∃ f, Contiguous f (flat rl.segs) := by
  obtain ⟨stable, hsplit, -⟩ := h.split
  have := hwf.contiguous
  rw [hsplit] at this
  exact ⟨_, this.right⟩

theorem suffixCut (hwf : rl.Wf) {i : Nat} (hcut : SuffixCut rl i rl') (hf : rl.first ≠ 0)
    (hlo : rl.first ≤ i) (hhi : i ≤ rl.last + 1) : rl'.Segmented := by
  obtain ⟨f, hflat⟩ := h.contiguous_flat hwf
  have hne : ∀ s ∈ rl.segs.reverse, s.entries ≠ [] := fun s hs =>
    (h.held s (List.mem_reverse.mp hs)).1
  refine h.of_cut hwf.running.1 hcut.w rfl hcut.nextSeq (·.index < i) ?_ ?_
  · rw [(hcut.spec hwf hf hlo hhi).2, hwf.contiguous.filter_lt]
  · rw [hcut.segs, dropSegsFrom_eq (by rwa [List.reverse_reverse]) hne, trim, List.map_reverse,
      List.filter_reverse, List.reverse_reverse, trim]

theorem prefixCut (hwf : rl.Wf) {i : Nat} (hcut : PrefixCut rl i rl')
    (hi : ¬ (rl.first ≠ 0 ∧ i ≤ rl.first)) : rl'.Segmented := by
  obtain ⟨f, hflat⟩ := h.contiguous_flat hwf
  refine h.of_cut hwf.running.1 hcut.w rfl hcut.nextSeq (i ≤ ·.index) ?_ ?_
  · rw [(hcut.spec hwf hi).2, hwf.contiguous.filter_ge]
  · rw [hcut.segs, dropSegsBelow_eq hflat fun s hs => (h.held s hs).1]

theorem append [Sized ι] (hwf : rl.Wf) (hne : es ≠ []) (hc : Contiguous (rl.lastLogIndex + 1) es) :
    (rl.append es).2.Segmented := by
  have hclosed := hwf.running.1
  obtain ⟨-, hcontents⟩ := append_spec hwf hne hc
  obtain ⟨op, rl', hrl', hw, hseq, hkind, hsegs, hnext⟩ := append_fields rl hne
  rw [hrl'] at hcontents ⊢
  obtain ⟨hsorted, hle, hdone⟩ := h.queue_of_enqueue hclosed hw hseq hnext
  have hkeep : ∀ e s, rl.Holds s e → rl'.Holds s e := fun e s hs => by
    refine hs.enqueue hclosed hw fun st st' _ hexec he => ?_
    rw [hkind] at hexec
    obtain rfl : st.appendLogEntries es = st' := by simpa [Store.exec] using hexec
    exact List.mem_append_left _ he
  obtain ⟨stable, hsplit, hstable⟩ := h.split
  refine ⟨⟨stable, ?_, fun e he => hkeep e 0 (hstable e he)⟩, ?_, ?_, ?_, hsorted, hle, hdone⟩
  · rw [hcontents, hsplit, hsegs, flat_append, List.append_assoc]
    simp
  · rw [hsegs]
    refine List.forall_mem_append.mpr ⟨fun s hs => ?_, List.forall_mem_singleton.mpr ⟨hne, fun e he => ?_⟩⟩
    · exact ⟨(h.held s hs).1, fun e he => hkeep e s.seq ((h.held s hs).2 e he)⟩
    · refine holds_nextSeq (fun op' hop' => hnext ▸ (hle op' hop').2) ?_
      rw [hcontents]
      exact List.mem_append_right _ he
  · rw [hsegs, List.map_append, List.map_singleton]
    refine pairwise_concat h.segs_sorted fun b hb => ?_
    obtain ⟨s, hs, rfl⟩ := List.mem_map.mp hb
    exact Nat.lt_succ_of_le (h.segs_le s hs)
  · rw [hsegs, hnext]
    exact List.forall_mem_append.mpr
      ⟨fun s hs => Nat.le_succ_of_le (h.segs_le s hs), List.forall_mem_singleton.mpr le_rfl⟩

theorem stabilize [Sized ι] {d : WriteDone} (hd : ∀ op ∈ rl.w.queue, d.seq < op.seq) :
    (rl.stabilize d).Segmented := by
  unfold RaftLog.stabilize
  split_ifs
  · exact h
  have hw : ∀ e s, rl.Holds s e →
      ({ rl with durable := d.durableAfter }.shrinkSegs
        (rl.segs.dropWhile (·.seq ≤ d.seq))).Holds s e := fun e s hs => hs.congr rfl
  have hsub : (rl.segs.dropWhile (·.seq ≤ d.seq)).Sublist rl.segs := List.dropWhile_sublist _
  have hcut : flat rl.segs = flat (rl.segs.takeWhile (·.seq ≤ d.seq)) ++
      flat (rl.segs.dropWhile (·.seq ≤ d.seq)) := by
    rw [← flat_append, List.takeWhile_append_dropWhile]
  obtain ⟨stable, hsplit, hstable⟩ := h.split
  refine ⟨⟨stable ++ flat (rl.segs.takeWhile (·.seq ≤ d.seq)), ?_, ?_⟩, ?_,
    h.segs_sorted.sublist (hsub.map _), fun s hs => h.segs_le s (hsub.subset hs), h.queue_sorted,
    h.queue_le, h.done_lt⟩
  · rw [List.append_assoc]
    exact hsplit.trans (congrArg _ hcut)
  · intro e he
    refine hw e 0 ?_
    rcases List.mem_append.mp he with he | he
    · exact hstable e he
    · -- everything queued comes after the reported write
      obtain ⟨s, hs, he⟩ := List.mem_flatMap.mp he
      have hseq : s.seq ≤ d.seq := by simpa using List.mem_takeWhile_imp hs
      exact From.of_lt ((h.held s ((List.takeWhile_sublist _).subset hs)).2 e he)
        (fun op hop => hseq.trans_lt (hd op hop)) 0
  · intro s hs
    obtain ⟨hne, hheld⟩ := h.held s (hsub.subset hs)
    exact ⟨hne, fun e he => hw e s.seq (hheld e he)⟩

theorem of_holds (hholds : ∀ e s, rl.Holds s e → rl'.Holds s e)
    (hcontents : rl'.contents = rl.contents) (hsegs : rl'.segs = rl.segs)
    (hnext : rl'.nextSeq = rl.nextSeq) (hsorted : (rl'.w.queue.map (·.seq)).Pairwise (· < ·))
    (hle : ∀ op ∈ rl'.w.queue, 0 < op.seq ∧ op.seq ≤ rl.nextSeq)
    (hdone : ∀ d ∈ rl'.w.done, d.seq ≤ rl.nextSeq ∧ ∀ op ∈ rl'.w.queue, d.seq < op.seq) :
    rl'.Segmented := by
  obtain ⟨stable, hsplit, hstable⟩ := h.split
  rw [← hcontents, ← hsegs] at hsplit
  refine ⟨⟨stable, hsplit, fun e he => hholds e 0 (hstable e he)⟩, ?_, ?_, ?_, hsorted, ?_, ?_⟩
  · rw [hsegs]
    exact fun s hs => ⟨(h.held s hs).1, fun e he => hholds e s.seq ((h.held s hs).2 e he)⟩
  · rw [hsegs]
    exact h.segs_sorted
  · rw [hsegs, hnext]
    exact h.segs_le
  · rwa [hnext]
  · rwa [hnext]

theorem congr (hw : rl'.w = rl.w) (hsegs : rl'.segs = rl.segs) (hnext : rl'.nextSeq = rl.nextSeq) :
    rl'.Segmented := by
  refine h.of_holds (fun e s hs => hs.congr hw) (contents_congr hw) hsegs hnext ?_ ?_ ?_ <;> rw [hw]
  exacts [h.queue_sorted, h.queue_le, h.done_lt]

theorem execute (hwf : rl.Wf) : (rl.execute none).Segmented := by
  have hnum := (h.numbered hwf.running.1).execute none
  refine h.of_holds ?_ hwf.execute.2 rfl rfl hnum.sorted
    (fun op hop => h.queue_le op (List.mem_of_mem_drop hop))
    (fun d hd => hnum.done d (by simpa using hd))
  exact fun e n hn => From.execute hn hwf

theorem saveSnapshot (hwf : rl.Wf) (snap : Snapshot ι) : (rl.saveSnapshot snap).Segmented := by
  refine h.of_holds ?_ (hwf.saveSnapshot snap).2 rfl rfl h.queue_sorted h.queue_le h.done_lt
  intro e n hn k st hk hst
  have hst' : (rl.stage k).map (·.saveSnapshot snap) = some st :=
    (StorageWriter.execAll_saveSnapshot _ _ _ _).symm.trans hst
  obtain ⟨st0, hst0, rfl⟩ := Option.map_eq_some_iff.mp hst'
  exact hn k st0 hk hst0

end

theorem of_fresh {s : Store ι} (h : Fresh s rl) : rl.Segmented := by
  refine ⟨⟨s.entries, by simp [h.contents, h.segs], fun e he => From.of_fresh h he⟩, ?_, ?_, ?_, ?_,
    ?_, ?_⟩
  all_goals simp [h.segs, h.queue, h.done]

/-! ### Reading -/

theorem unstableFirst_eq (rl : RaftLog ι) :
    rl.unstableFirst = ((flat rl.segs).head?.map (·.index)).getD 0 := by
  rw [unstableFirst, flat, List.head?_flatMap]
  cases rl.segs.findSome? fun s => s.entries.head? <;> rfl

section

variable (h : rl.Segmented)

include h

theorem split_at (hwf : rl.Wf) : ∃ stable,
    rl.contents = stable ++ flat rl.segs ∧ (∀ e ∈ stable, rl.Holds 0 e) ∧
      (rl.unstableFirst = 0 ∧ flat rl.segs = [] ∨
        rl.first ≠ 0 ∧ rl.unstableFirst = rl.first + stable.length) := by
  obtain ⟨stable, hsplit, hstable⟩ := h.split
  refine ⟨stable, hsplit, hstable, ?_⟩
  have hc := hwf.contiguous
  rw [hsplit] at hc
  rw [unstableFirst_eq]
  cases hhead : (flat rl.segs).head? with
  | none => exact .inl ⟨rfl, List.head?_eq_none_iff.mp hhead⟩
  | some e =>
    refine .inr ⟨?_, hc.right.head?_index hhead⟩
    intro hzero
    have hnil := hwf.first_eq_zero.mp hzero
    rw [hsplit, List.append_eq_nil_iff] at hnil
    simp [hnil.2] at hhead

theorem holds_of_lt_unstableFirst (hwf : rl.Wf) {e : LogEntry ι} (he : e ∈ rl.contents)
    (hlt : rl.unstableFirst ≠ 0 → e.index < rl.unstableFirst) : rl.Holds 0 e := by
  obtain ⟨stable, hsplit, hstable, hcase⟩ := h.split_at hwf
  have hc := hwf.contiguous
  rw [hsplit] at hc he
  rcases List.mem_append.mp he with he | he
  · exact hstable e he
  · rcases hcase with ⟨-, hnil⟩ | ⟨hf, hus⟩
    · simp [hnil] at he
    · have h1 := (hc.right.index_of_mem he).1
      omega

theorem getLogEntries_eq (hwf : rl.Wf) {lo hi : Nat} (hf : rl.first ≠ 0) (hlo : rl.first ≤ lo)
    (hlt : lo < hi) (hhi : hi ≤ rl.last + 1) (hus : rl.unstableFirst ≠ 0 → hi ≤ rl.unstableFirst) :
    rl.w.storage.getLogEntries lo hi = some ((rl.contents.drop (lo - rl.first)).take (hi - lo)) := by
  have hne := hwf.ne_nil_of_first hf
  have hlast := hwf.last_add_one hne
  obtain ⟨st, hst, hstwf⟩ := hwf.stages 0
  obtain rfl : rl.w.storage = st := by simpa [stage] using hst
  have hstored : ∀ e ∈ rl.contents, e.index < hi → e ∈ rl.w.storage.entries := fun e he hlt' =>
    (h.holds_of_lt_unstableFirst hwf he fun hne' => by have := hus hne'; omega).mem_storage h.pos
  obtain ⟨a, ha, haidx⟩ := hwf.contiguous.exists_index hlo (by omega)
  obtain ⟨b, hb, hbidx⟩ := hwf.contiguous.exists_index (i := hi - 1) (by omega) (by omega)
  have hsne : rl.w.storage.entries ≠ [] := List.ne_nil_of_mem (hstored a ha (by omega))
  have halo := (hstwf.contiguous.index_of_mem (hstored a ha (by omega))).1
  have hbhi := (hstwf.contiguous.index_of_mem (hstored b hb (by omega))).2.1
  have hslast := Store.lastIndex_eq hstwf.contiguous hsne
  have hslice := (hwf.contiguous.drop (lo - rl.first)).take (hi - lo)
  rw [show rl.first + (lo - rl.first) = lo by omega] at hslice
  unfold Store.getLogEntries
  rw [if_neg (by omega), if_neg hsne, if_neg (by omega), Option.some.injEq]
  refine hstwf.contiguous.eq_of_subset ?_ hslice ?_ ?_ ?_
  · have := (hstwf.contiguous.drop (lo - rl.w.storage.firstIndex)).take (hi - lo)
    rwa [show rl.w.storage.firstIndex + (lo - rl.w.storage.firstIndex) = lo by omega] at this
  · simp only [List.length_take, List.length_drop]
    omega
  · exact fun e he => List.mem_of_mem_drop (List.mem_of_mem_take he)
  · intro e he
    have := (hslice.index_of_mem he).2.1
    rw [List.length_take] at this
    exact hstored e (List.mem_of_mem_drop (List.mem_of_mem_take he)) (by omega)

/-- **Reading a range of the log** finds its entries, wherever they are. -/
theorem entries_eq (hwf : rl.Wf) {lo hi : Nat} (hf : rl.first ≠ 0) (hlo : rl.first ≤ lo)
    (hlt : lo < hi) (hhi : hi ≤ rl.last + 1) :
    rl.entries lo hi = some ((rl.contents.drop (lo - rl.first)).take (hi - lo)) := by
  obtain ⟨stable, hsplit, -, hcase⟩ := h.split_at hwf
  have hc := hwf.contiguous
  rw [hsplit] at hc
  unfold RaftLog.entries
  simp only [Nat.min_eq_left hhi]
  rw [if_neg (by omega), if_neg (by omega)]
  rcases hcase with ⟨hus, -⟩ | ⟨-, hus⟩
  · rw [if_neg (by omega), if_neg (by omega), h.getLogEntries_eq hwf hf hlo hlt hhi (by omega)]
    simp
  have hflat : ∀ j, rl.unstableFirst ≤ j → rl.contents.drop (j - rl.first) =
      (flat rl.segs).drop (j - rl.unstableFirst) := fun j hj => by
    rw [hsplit, hus, List.drop_append, List.drop_of_length_le (by omega), List.nil_append]
    congr 1
    omega
  have hseg : ∀ j, rl.unstableFirst ≤ j → j < hi →
      sliceSegs j hi rl.segs = (rl.contents.drop (j - rl.first)).take (hi - j) := fun j hj hjhi => by
    rw [sliceSegs_eq hc.right (fun s hs => (h.held s hs).1) hjhi.le, hflat j hj, hus,
      max_eq_left (by omega)]
  by_cases hmem : rl.unstableFirst ≤ lo
  · rw [if_pos ⟨by omega, hmem⟩, hseg lo hmem hlt]
  rw [if_neg (by omega)]
  by_cases hcut : rl.unstableFirst < hi
  · rw [if_pos ⟨by omega, hcut⟩, h.getLogEntries_eq hwf hf hlo (by omega) (by omega) (by omega),
      Option.map_some, if_pos hcut, hseg _ le_rfl hcut, show hi - lo = (rl.unstableFirst - lo) + (hi - rl.unstableFirst) by omega,
      List.take_add, List.drop_drop]
    congr 4
    omega
  · rw [if_neg (by omega), h.getLogEntries_eq hwf hf hlo hlt hhi (by omega)]
    simp

end

end Segmented

end RaftLog

end Raft
