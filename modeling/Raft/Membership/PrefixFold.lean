import Raft.Membership.Turns

/-!
# The membership in effect as a fold over the log

A node starts with every configuration entry of its log adopted and then adopts them again,
one at a time, as they are applied.  The membership in effect is meant to be that of the
snapshot base with the configuration entries up to some point of the log adopted, each once
and in order.  Whether it is rests on what adopting an entry again makes of a membership that
has seen later ones.
-/

namespace Raft

variable {ι : Type} [DecidableEq ι]

/-! ## What is in effect -/

/-- Who is in the group and who votes. -/
structure Lineup (ι : Type) where
  peers : List (PeerConfig ι)
  voter : Bool
  jointOld : Option (List (PeerConfig ι))
  jointNew : List (PeerConfig ι)
  jointIncludeSelf : Bool
  jointSelfVoter : Bool
  jointSelfVoterOld : Bool
  deriving DecidableEq

def Membership.lineup (m : Membership ι) : Lineup ι :=
  { peers := m.peers
    voter := m.voter
    jointOld := m.jointOld
    jointNew := m.jointNew
    jointIncludeSelf := m.jointIncludeSelf
    jointSelfVoter := m.jointSelfVoter
    jointSelfVoterOld := m.jointSelfVoterOld }

namespace Lineup

def membership (l : Lineup ι) : Membership ι :=
  { peers := l.peers
    voter := l.voter
    jointOld := l.jointOld
    jointNew := l.jointNew
    jointIncludeSelf := l.jointIncludeSelf
    jointSelfVoter := l.jointSelfVoter
    jointSelfVoterOld := l.jointSelfVoterOld
    membershipWitness := false
    base := { joint := false, members := [], old := [], new := [], commitQuorum := 0 }
    configIndex := 0
    commitQuorumApplied := 0
    commitQuorumLatest := 0
    commitQuorumAgreed := false
    clientTableCap := 0
    clientTableCapReplicated := false
    clientTableCapAgreed := false
    baseClientTableCap := none }

def adopt (id : ι) (witness : Bool) (l : Lineup ι) (op : ConfigOp ι) : Lineup ι :=
  (l.membership.adopt id witness op 0).lineup

def adoptAll (id : ι) (witness : Bool) (l : Lineup ι) (es : List (LogEntry ι)) : Lineup ι :=
  es.foldl (fun l e =>
    match e.command with
    | .config op => l.adopt id witness op
    | .user _ => l) l

end Lineup

def MembershipState.lineup (id : ι) (ms : MembershipState ι) : Lineup ι :=
  ((⟨[], false, none, [], false, false, false⟩ : Lineup ι).membership.restore id ms).lineup

namespace Membership

variable (m : Membership ι) (id : ι) (witness : Bool)

theorem restore_lineup (ms : MembershipState ι) : (m.restore id ms).lineup = ms.lineup id := by
  unfold MembershipState.lineup restore
  split_ifs <;> rfl

theorem addMember_lineup (peer : PeerConfig ι) :
    (m.addMember id peer).lineup = (m.lineup.membership.addMember id peer).lineup := by
  unfold addMember
  split_ifs
  · rfl
  · rw [show m.lineup.membership.peers = m.peers from rfl]
    cases m.peers.find? (·.id = peer.id) with
    | some p =>
      dsimp only
      split_ifs <;> rfl
    | none => rfl

theorem removeMember_lineup (peer : ι) :
    (m.removeMember id peer).lineup = (m.lineup.membership.removeMember id peer).lineup := by
  unfold removeMember
  split_ifs <;> rfl

theorem adopt_lineup (op : ConfigOp ι) (i : Nat) :
    (m.adopt id witness op i).lineup = m.lineup.adopt id witness op := by
  cases op with
  | add peer =>
    exact (addMember_lineup { m with configIndex := i } id peer).trans
      (addMember_lineup { m.lineup.membership with configIndex := 0 } id peer).symm
  | remove peer =>
    exact (removeMember_lineup { m with configIndex := i } id peer).trans
      (removeMember_lineup { m.lineup.membership with configIndex := 0 } id peer).symm
  | joint old new | finalise members =>
    exact (restore_lineup _ id _).trans (restore_lineup _ id _).symm
  | _ => rfl

theorem adoptAll_lineup (es : List (LogEntry ι)) :
    (m.adoptAll id witness es).lineup = m.lineup.adoptAll id witness es := by
  unfold adoptAll Lineup.adoptAll
  induction es generalizing m with
  | nil => rfl
  | cons e es ih =>
    simp only [List.foldl_cons]
    rw [ih]
    cases e.command with
    | user payload => rfl
    | config op =>
      rw [adopt_lineup]

theorem rebase_lineup (i : Nat) : (m.rebase id i).lineup = m.base.lineup id :=
  restore_lineup m id m.base

omit [DecidableEq ι] in
theorem agree_lineup (op : ConfigOp ι) : (m.agree op).lineup = m.lineup := by
  cases op <;> rfl

omit [DecidableEq ι] in
theorem noteAppendedConfig_lineup (es : List (LogEntry ι)) :
    (m.noteAppendedConfig es).lineup = m.lineup := by
  rw [noteAppendedConfig_eq]
  rfl

omit [DecidableEq ι] in
theorem takeFrame_lineup (snap : Snapshot ι) : (m.takeFrame snap).lineup = m.lineup := by
  unfold takeFrame
  cases snap.clientTableCap <;> cases snap.membership <;> rfl

end Membership

namespace Lineup

variable (l : Lineup ι) (id : ι) (witness : Bool)

theorem adoptAll_append (es es' : List (LogEntry ι)) :
    l.adoptAll id witness (es ++ es') = (l.adoptAll id witness es).adoptAll id witness es' :=
  List.foldl_append

theorem adoptAll_users {es : List (LogEntry ι)}
    (h : ∀ e ∈ es, ∃ payload, e.command = .user payload) : l.adoptAll id witness es = l := by
  unfold adoptAll
  induction es with
  | nil => rfl
  | cons e es ih =>
    obtain ⟨payload, hcmd⟩ := h e List.mem_cons_self
    rw [List.foldl_cons, hcmd]
    exact ih fun e' he' => h e' (List.mem_cons_of_mem e he')

end Lineup

/-! ## The front of a log -/

namespace PlainLog

variable {p : PlainLog ι} {f c d : Nat}

/-- The entries up to an index. -/
def upTo (p : PlainLog ι) (c : Nat) : List (LogEntry ι) := p.entries.filter (·.index ≤ c)

omit [DecidableEq ι]

section

variable (h : Contiguous f p.entries)

include h

theorem upTo_eq_take : p.upTo c = p.entries.take (c + 1 - f) := by
  have hlt : p.upTo c = p.entries.filter (·.index < c + 1) :=
    List.filter_congr fun e _ => by simp only [Nat.lt_succ_iff]
  rw [hlt, h.filter_lt]

theorem upTo_front (c : Nat) : p.upTo c <+: p.entries := by
  rw [upTo_eq_take h]
  exact List.take_prefix _ _

theorem upTo_of_lastIndex_le (hc : p.lastIndex ≤ c) : p.upTo c = p.entries := by
  refine List.filter_eq_self.mpr fun e he => ?_
  have := mem_le_lastIndex h he
  simp only [decide_eq_true_eq]
  omega

theorem upTo_min (c : Nat) : p.upTo (min c p.lastIndex) = p.upTo c := by
  refine List.filter_congr fun e he => ?_
  have := mem_le_lastIndex h he
  simp only [decide_eq_decide]
  omega

end

theorem upTo_append {es : List (LogEntry ι)} (hes : ∀ e ∈ es, c < e.index) :
    upTo { p with entries := p.entries ++ es } c = p.upTo c := by
  have hnone : es.filter (·.index ≤ c) = [] := by
    refine List.filter_eq_nil_iff.mpr fun e he => ?_
    have := hes e he
    simp only [decide_eq_true_eq]
    omega
  unfold upTo
  rw [List.filter_append, hnone, List.append_nil]

theorem upTo_below {i : Nat} (hc : c < i) : (p.below i).upTo c = p.upTo c := by
  unfold upTo below
  rw [List.filter_filter]
  refine List.filter_congr fun e _ => ?_
  simp only [← Bool.decide_and, decide_eq_decide]
  omega

theorem upTo_add (h : Contiguous f p.entries) (hle : c ≤ d) :
    ∃ es, p.upTo d = p.upTo c ++ es ∧ ∀ e ∈ es, e ∈ p.entries ∧ c < e.index ∧ e.index ≤ d := by
  refine ⟨(p.upTo d).drop (c + 1 - f), ?_, fun e he => ?_⟩
  · rw [upTo_eq_take h, upTo_eq_take h]
    conv_lhs => rw [← List.take_append_drop (c + 1 - f) (p.entries.take (d + 1 - f))]
    rw [List.take_take, Nat.min_eq_left (by omega)]
  · obtain ⟨hmem, hle'⟩ := List.mem_filter.mp (List.mem_of_mem_drop he)
    obtain ⟨k, hk⟩ := List.mem_iff_getElem?.mp he
    rw [List.getElem?_drop, upTo_eq_take h, List.getElem?_take] at hk
    split_ifs at hk
    have hidx := h _ _ hk
    simp only [decide_eq_true_eq] at hle'
    exact ⟨hmem, by omega, hle'⟩

theorem upTo_index (h : Contiguous f p.entries) {e : LogEntry ι} (he : e ∈ p.entries)
    (hpos : 0 < e.index) : p.upTo e.index = p.upTo (e.index - 1) ++ [e] := by
  obtain ⟨hlo, -, hget⟩ := h.index_of_mem he
  rw [upTo_eq_take h, upTo_eq_take h, show e.index + 1 - f = e.index - f + 1 by omega,
    show e.index - 1 + 1 - f = e.index - f by omega, List.take_add_one, hget]
  rfl

end PlainLog

structure PlainLog.Next (p : PlainLog ι) (c index : Nat) (op : ConfigOp ι) : Prop where
  there : ∃ e ∈ p.entries, e.index = index ∧ e.command = .config op
  first : ∀ e ∈ p.entries, c < e.index → e.index < index → ∃ payload, e.command = .user payload

instance (cmd : Command ι) : Decidable (∃ payload, cmd = .user payload) :=
  match cmd with
  | .user payload => isTrue ⟨payload, rfl⟩
  | .config _ => isFalse fun ⟨_, h⟩ => nomatch h

instance (p : PlainLog ι) (c index : Nat) (op : ConfigOp ι) : Decidable (p.Next c index op) :=
  decidable_of_iff ((∃ e ∈ p.entries, e.index = index ∧ e.command = .config op) ∧
      ∀ e ∈ p.entries, c < e.index → e.index < index → ∃ payload, e.command = .user payload)
    ⟨fun h => ⟨h.1, h.2⟩, fun h => ⟨h.1, h.2⟩⟩

variable [Sized ι]

namespace Node

/-! ## Folded memberships -/

def foldOver (n : Node ι) (base : MembershipState ι) (es : List (LogEntry ι)) : Lineup ι :=
  (base.lineup n.cfg.id).adoptAll n.cfg.id n.cfg.witness es

def foldUpTo (n : Node ι) (c : Nat) : Lineup ι :=
  n.foldOver n.membership.base (n.log.plain.upTo c)

/-- The membership in effect is the snapshot base with the entries of the log up to `c` adopted. -/
structure Folded (n : Node ι) (c : Nat) : Prop where
  within : c ≤ n.log.lastLogIndex
  front : n.log.plain.upTo c <+: n.log.plain.entries
  inEffect : n.membership.lineup = n.foldUpTo c

/-- The point moves back only behind what has been removed from the log. -/
def Retreats (n : Node ι) (c : Nat) (n' : Node ι) (c' : Nat) : Prop :=
  ∀ e ∈ n.log.plain.entries, c' < e.index → e.index ≤ c →
    ∃ e₀ ∈ n.log.plain.entries, c' < e₀.index ∧ e₀.index ≤ e.index ∧ e₀ ∉ n'.log.plain.entries

structure FoldsOn (n : Node ι) (c : Nat) (n' : Node ι) (c' : Nat) : Prop where
  folded : n'.Folded c'
  retreats : n.Retreats c n' c'

variable {es : List (LogEntry ι)} {c : Nat} {n : Node ι}

section FoldsOn

variable {n n' : Node ι} {c c' : Nat} {p' : PlainLog ι}

omit [Sized ι]

theorem Folded.of_sound (hn : n.log.Sound) (hwithin : c ≤ n.log.lastLogIndex)
    (heffect : n.membership.lineup = n.foldUpTo c) : n.Folded c :=
  ⟨hwithin, PlainLog.upTo_front hn.wf.contiguous c, heffect⟩

omit [DecidableEq ι] in
theorem Retreats.of_le (h : c ≤ c') : n.Retreats c n' c' :=
  fun e _ hlo hhi => absurd hlo (by omega)

omit [DecidableEq ι] in
theorem Retreats.of_end (hlog : n'.log.Refines p') (h : n'.log.lastLogIndex ≤ c') :
    n.Retreats c n' c' := by
  intro e he hlo _
  refine ⟨e, he, hlo, le_rfl, fun he' => ?_⟩
  have := PlainLog.mem_le_lastIndex hlog.sound.wf.contiguous he'
  rw [← hlog.sound.lastLogIndex_eq] at this
  omega

section Grown

variable (hn : n.log.Sound) (hcfg : n'.cfg = n.cfg)
  (hbase : n'.membership.base = n.membership.base)
  (hlog : n'.log.Refines { n.log.plain with entries := n.log.plain.entries ++ es })
  (hc : Contiguous (n.log.lastLogIndex + 1) es)

include hn hcfg hbase hlog hc

theorem FoldsOn.of_grown (hle : c ≤ c') (hwithin : c' ≤ n.log.lastLogIndex)
    (hline : n'.membership.lineup = n.foldUpTo c') : n.FoldsOn c n' c' := by
  have hlast := hn.lastLogIndex_of_append hlog hc
  refine ⟨.of_sound hlog.sound (by omega) ?_, .of_le hle⟩
  rw [hline, foldUpTo, foldUpTo, hlog.plain_eq, hbase, foldOver, foldOver, hcfg,
    PlainLog.upTo_append fun e he => ?_]
  have := (hc.index_of_mem he).1
  omega

theorem Folded.grows (h : n.Folded c) (hline : n'.membership.lineup = n.membership.lineup) :
    n.FoldsOn c n' c :=
  .of_grown hn hcfg hbase hlog hc le_rfl h.within (hline.trans h.inEffect)

end Grown

theorem FoldsOn.of_rebuilt (hcfg : n'.cfg = n.cfg) (hlog : n'.log.Refines p') {m : Membership ι}
    {i : Nat} (hmem : n'.membership =
      Membership.adoptAll n.cfg.id n.cfg.witness (m.rebase n.cfg.id i) p'.entries) :
    n.FoldsOn c n' n'.log.lastLogIndex := by
  have hbase : n'.membership.base = m.base := by
    rw [hmem, Membership.adoptAll_base]
    exact (m.rebase_frame _ i).1
  have hall : p'.upTo n'.log.lastLogIndex = p'.entries :=
    PlainLog.upTo_of_lastIndex_le (hlog.contents ▸ hlog.wf.contiguous) hlog.lastLogIndex_eq.ge
  refine ⟨.of_sound hlog.sound le_rfl ?_, .of_end hlog le_rfl⟩
  rw [foldUpTo, hlog.plain_eq, hall, hbase, foldOver, hcfg, hmem, Membership.adoptAll_lineup,
    Membership.rebase_lineup]

theorem Folded.moves (h : n.Folded c) (hcfg : n'.cfg = n.cfg) (hlog : n'.log.Refines p')
    (hline : n'.membership.lineup = n.membership.lineup)
    (hfold : n.foldOver n'.membership.base (p'.upTo c) = n.foldUpTo c) :
    n.FoldsOn c n' (min c n'.log.lastLogIndex) := by
  have hc : Contiguous n'.log.first p'.entries := hlog.contents ▸ hlog.wf.contiguous
  refine ⟨.of_sound hlog.sound (Nat.min_le_right _ _) ?_, ?_⟩
  · rw [hline, h.inEffect, ← hfold, foldUpTo, hlog.plain_eq, foldOver, foldOver, hcfg,
      hlog.lastLogIndex_eq, PlainLog.upTo_min hc]
  · rcases Nat.le_total c n'.log.lastLogIndex with hle | hle
    · exact .of_le (by omega)
    · exact .of_end hlog (by omega)

end FoldsOn

/-! ## Turns -/

def mergedMark (n : Node ι) (c : Nat) (es : List (LogEntry ι)) : Nat :=
  match n.log.plain.conflict es with
  | none => c
  | some e => if e.index ≤ n.membership.configIndex then e.index - 1 else min c (e.index - 1)

omit [DecidableEq ι] [Sized ι] in
theorem missing_of_conflict {p : PlainLog ι} {e : LogEntry ι} (h : p.conflict es = some e) :
    ∃ rest, p.missing es = e :: rest := by
  induction es with
  | nil => cases h
  | cons e' es ih =>
    unfold PlainLog.conflict at h
    unfold PlainLog.missing
    cases hterm : p.termAt e'.index with
    | none => simp [hterm] at h
    | some t =>
      simp only [hterm, Option.some.injEq] at h ⊢
      split_ifs at h ⊢
      · exact ih h
      · cases h
        exact ⟨es, rfl⟩

omit [Sized ι] in
theorem Folded.merge {n' : Node ι} (h : n.Folded c) (hn : n.log.Sound) (hcfg : n'.cfg = n.cfg)
    (htakes : n.log.plain.Takes es) (hlog : n'.log.Refines (n.log.plain.merge es))
    (hmem : n'.membership = (n.mergedMembership es).noteAppendedConfig es)
    (hcut : ∀ e, n.log.plain.conflict es = some e → n.membership.configIndex < e.index →
      n.foldUpTo c = n.foldUpTo (min c (e.index - 1))) : n.FoldsOn c n' (n.mergedMark c es) := by
  have hcont := htakes.continues
  have hline : n'.membership.lineup = (n.mergedMembership es).lineup := by
    rw [hmem, Membership.noteAppendedConfig_lineup]
  have hbase' : n'.membership.base = (n.mergedMembership es).base := by
    rw [hmem, Membership.noteAppendedConfig_eq]
  cases hconflict : n.log.plain.conflict es with
  | none =>
    have hkept : n.log.plain.kept es = n.log.plain := by rw [PlainLog.kept, hconflict]
    have hmerged : n.mergedMembership es = n.membership := by rw [mergedMembership, hconflict]
    rw [hkept, ← hn.lastLogIndex_eq] at hcont
    rw [PlainLog.merge, hkept] at hlog
    rw [hmerged] at hline hbase'
    rw [mergedMark, hconflict]
    exact h.grows hn hcfg hbase' hlog hcont hline
  | some e =>
    obtain ⟨rest, hmissing⟩ := missing_of_conflict hconflict
    obtain ⟨e', he', hidx, hterm⟩ := htakes.inside e hconflict
    have hkept : n.log.plain.kept es = n.log.plain.below e.index := by rw [PlainLog.kept, hconflict]
    rw [hkept] at hcont
    rw [PlainLog.merge, hkept] at hlog
    have hend : e.index = (n.log.plain.below e.index).lastIndex + 1 := by
      rw [hmissing] at hcont
      simpa using hcont 0 e rfl
    have hnew : ∀ e₁ ∈ n.log.plain.missing es, e.index ≤ e₁.index := fun e₁ he₁ => by
      have := (hcont.index_of_mem he₁).1
      omega
    have he : e ∈ n'.log.plain.entries := by
      rw [hlog.plain_eq, hmissing]
      exact List.mem_append_right _ List.mem_cons_self
    -- the entry that is contradicted is gone
    have hgone : e' ∉ n'.log.plain.entries := fun hthere =>
      hterm (by rw [hlog.sound.wf.contiguous.eq_of_index hthere he hidx])
    have hretreats : ∀ c', c' = e.index - 1 ∨ c ≤ c' → n.Retreats c n' c' := by
      rintro c' (rfl | hle)
      · exact fun e₁ he₁ hlo hhi => ⟨e', he', by omega, by omega, hgone⟩
      · exact .of_le hle
    have hfront : ∀ c', c' < e.index → n'.log.plain.upTo c' = n.log.plain.upTo c' := by
      intro c' hc'
      rw [hlog.plain_eq]
      refine (PlainLog.upTo_append (p := n.log.plain.below e.index) fun e₁ he₁ => ?_).trans
        (PlainLog.upTo_below hc')
      have := hnew e₁ he₁
      omega
    have hlast : e.index ≤ n'.log.lastLogIndex := by
      rw [hlog.sound.lastLogIndex_eq]
      exact PlainLog.mem_le_lastIndex hlog.sound.wf.contiguous he
    rw [mergedMark, hconflict]
    dsimp only
    split_ifs with hadopted
    · -- recomputed from what is left of the log
      have hmerged : n.mergedMembership es =
          (n.membership.rebase n.cfg.id n.log.snapMeta.lastIncludedIndex).adoptAll n.cfg.id
            n.cfg.witness (n.log.plain.below e.index).entries := by
        rw [mergedMembership, hconflict]
        exact if_pos hadopted
      have hbase : n'.membership.base = n.membership.base := by
        rw [hbase', hmerged, Membership.adoptAll_base]
        exact (n.membership.rebase_frame _ _).1
      have hleft : n.log.plain.upTo (e.index - 1) = (n.log.plain.below e.index).entries :=
        List.filter_congr fun e₁ _ => by
          simp only [decide_eq_decide]
          omega
      refine ⟨.of_sound hlog.sound (by omega) ?_, hretreats _ (.inl rfl)⟩
      rw [hline, hmerged, Membership.adoptAll_lineup, Membership.rebase_lineup, foldUpTo,
        hfront _ (by omega), hleft, hbase, foldOver, hcfg]
    · have hmerged : n.mergedMembership es = n.membership := by
        rw [mergedMembership, hconflict]
        exact if_neg hadopted
      rw [hmerged] at hline hbase'
      refine ⟨.of_sound hlog.sound (by omega) ?_, hretreats _ (by omega)⟩
      rw [hline, h.inEffect, hcut e hconflict (by omega), foldUpTo, foldUpTo,
        hfront _ (by omega), hbase', foldOver, foldOver, hcfg]

def appliedMark (n : Node ι) (c : Nat) : Nat :=
  match n.apply.results with
  | [] => c
  | r :: _ => if r.configCmd.isSome then max c r.index else c

/-- An entry that is applied is without effect if it has been adopted before, and is the next
one otherwise. -/
def AppliesInOrder (n : Node ι) (c : Nat) : Prop :=
  ∀ r rest op, n.apply.results = r :: rest → r.configCmd = some op →
    if r.index ≤ c then n.membership.lineup.adopt n.cfg.id n.cfg.witness op = n.membership.lineup
    else n.log.plain.Next c r.index op

instance (n : Node ι) (c : Nat) : Decidable (n.AppliesInOrder c) :=
  match hres : n.apply.results with
  | [] => isTrue fun r rest op h => nomatch hres.symm.trans h
  | r :: rest =>
    match hcmd : r.configCmd with
    | none => isTrue fun r' rest' op h hop => by
        cases hres.symm.trans h
        cases hcmd.symm.trans hop
    | some op =>
      decidable_of_iff (if r.index ≤ c then
          n.membership.lineup.adopt n.cfg.id n.cfg.witness op = n.membership.lineup
        else n.log.plain.Next c r.index op)
        ⟨fun hin r' rest' op' h hop => by
          cases hres.symm.trans h
          cases hcmd.symm.trans hop
          exact hin,
        fun hin => hin r rest op hres hcmd⟩

omit [Sized ι] in
theorem Folded.adopt_next {index : Nat} {op : ConfigOp ι} (h : n.Folded c) (hn : n.log.Sound)
    (hnext : n.log.plain.Next c index op) (hc : c < index) :
    index ≤ n.log.lastLogIndex ∧
      n.membership.lineup.adopt n.cfg.id n.cfg.witness op = n.foldUpTo index := by
  obtain ⟨e, he, rfl, hcmd⟩ := hnext.there
  have hcont : Contiguous n.log.first n.log.plain.entries := hn.wf.contiguous
  refine ⟨?_, ?_⟩
  · rw [hn.lastLogIndex_eq]
    exact PlainLog.mem_le_lastIndex hcont he
  · obtain ⟨es, hes, hbetween⟩ := PlainLog.upTo_add hcont (show c ≤ e.index - 1 by omega)
    have husers : ∀ e₁ ∈ es, ∃ payload, e₁.command = .user payload := fun e₁ he₁ => by
      obtain ⟨hmem, hlo, hhi⟩ := hbetween e₁ he₁
      exact hnext.first e₁ hmem hlo (by omega)
    rw [h.inEffect, foldUpTo, foldUpTo, PlainLog.upTo_index hcont he (by omega), hes, foldOver,
      foldOver, Lineup.adoptAll_append, Lineup.adoptAll_append,
      Lineup.adoptAll_users _ _ _ husers]
    simp only [Lineup.adoptAll, List.foldl_cons, List.foldl_nil, hcmd]

theorem Folded.applyResult (h : n.Folded c) (hn : n.log.Sound) (hnum : n.Numbered [])
    (hcfg : n.handleApplyResult.cfg = n.cfg) (hkeep : n.AppliesInOrder c) :
    n.FoldsOn c n.handleApplyResult (n.appliedMark c) := by
  unfold appliedMark
  cases hres : n.apply.results with
  | nil =>
    have hsame : n.handleApplyResult = n := by simp only [handleApplyResult, hres]
    rw [hsame]
    exact ⟨h, .of_le le_rfl⟩
  | cons r rest =>
    obtain ⟨⟨es, hlog, hes, -⟩, hmem⟩ := handleApplyResult_plain hn hnum hres
    dsimp only
    cases hcmd : r.configCmd with
    | none =>
      rw [hcmd] at hmem
      exact h.grows hn hcfg (congrArg _ hmem) hlog hes (congrArg _ hmem)
    | some op =>
      rw [hcmd] at hmem
      have hline : n.handleApplyResult.membership.lineup =
          n.membership.lineup.adopt n.cfg.id n.cfg.witness op := by
        rw [hmem, Membership.agree_lineup, Membership.adopt_lineup]
      have hbase : n.handleApplyResult.membership.base = n.membership.base := by
        rw [hmem, (Membership.agree_frame _ op).1, Membership.adopt_base]
      have happly := hkeep r rest op hres hcmd
      simp only [Option.isSome_some, if_true]
      by_cases hle : r.index ≤ c
      · -- adopted before, and adopting it again changes nothing
        rw [if_pos hle] at happly
        rw [Nat.max_eq_left hle]
        exact h.grows hn hcfg hbase hlog hes (hline.trans happly)
      · rw [if_neg hle] at happly
        obtain ⟨hwithin, heffect⟩ := h.adopt_next hn happly (by omega)
        rw [Nat.max_eq_right (by omega)]
        exact .of_grown hn hcfg hbase hlog hes (by omega) hwithin (hline.trans heffect)

/-- A local snapshot records what the entries it drops have made of the base. -/
def SnapshotKeepsFold (n : Node ι) (c : Nat) : Prop :=
  ∀ r rest, n.snapshots.results = r :: rest → r.err = false →
    n.foldOver r.trigger.membership (PlainLog.upTo ⟨r.trigger.position, n.log.plain.entries.filter
      (RaftLog.keepFrom r.trigger.position.lastIncludedIndex n.trailingLogs ≤ ·.index)⟩ c) =
        n.foldUpTo c

omit [DecidableEq ι] in
theorem takeSnapshotResult_cfg (n : Node ι) : n.takeSnapshotResult.cfg = n.cfg := by
  unfold takeSnapshotResult
  cases n.snapshots.results with
  | nil => rfl
  | cons r rest =>
    simp only [handleSnapshotResult]
    split_ifs <;> rfl

theorem Folded.snapshotResult (h : n.Folded c) (hn : n.log.Sound) (hkeep : n.SnapshotKeepsFold c) :
    n.FoldsOn c n.takeSnapshotResult (min c n.takeSnapshotResult.log.lastLogIndex) := by
  have hcfg := n.takeSnapshotResult_cfg
  rcases takeSnapshotResult_plain hn with ⟨hlog, hmem, -⟩ | ⟨r, rest, hres, herr, hlog, hmem⟩
  · refine h.moves hcfg hlog (congrArg _ hmem) ?_
    rw [hmem]
    rfl
  · refine h.moves hcfg hlog ?_ ?_
    · rw [hmem]
      rfl
    · rw [hmem]
      exact hkeep r rest hres herr

def installedMark (n : Node ι) (k c : Nat) : Nat :=
  match n.snapshots.installed[k]? with
  | some (snap, true) =>
    if n.lastApplied < snap.position.lastIncludedIndex ∧ snap.membership.isSome then
      (n.takeInstallResult k).log.lastLogIndex
    else min c (n.takeInstallResult k).log.lastLogIndex
  | _ => min c (n.takeInstallResult k).log.lastLogIndex

/-- An installed snapshot without a membership drops entries that do not matter. -/
def InstallKeepsFold (n : Node ι) (k c : Nat) : Prop :=
  ∀ snap, n.Installs k snap → snap.membership = none →
    n.foldOver n.membership.base ((n.log.plain.install snap.position).upTo c) = n.foldUpTo c

theorem Folded.installResult {k : Nat} (h : n.Folded c) (hn : n.log.Sound) (hnum : n.Numbered [])
    (hcfg : (n.takeInstallResult k).cfg = n.cfg) (hkeep : n.InstallKeepsFold k c) :
    n.FoldsOn c (n.takeInstallResult k) (n.installedMark k c) := by
  rcases takeInstallResult_plain hn hnum k with ⟨snap, hinst, hlog, hmem⟩ | ⟨hno, hlog, hmem⟩
  · rw [installedMark, hinst.1]
    dsimp only
    cases hms : snap.membership with
    | none =>
      simp only [hms, Option.isSome_none, Bool.false_eq_true, if_false] at hmem
      rw [if_neg (by simp)]
      refine h.moves hcfg hlog ?_ ?_
      · rw [hmem, Membership.takeFrame_lineup]
      · have hbase : (n.membership.takeFrame snap).base = n.membership.base := by
          unfold Membership.takeFrame
          rw [hms]
          cases snap.clientTableCap <;> rfl
        rw [hmem, hbase]
        exact hkeep snap hinst hms
    | some ms =>
      simp only [hms, Option.isSome_some, if_true] at hmem
      rw [if_pos ⟨hinst.2, rfl⟩]
      exact .of_rebuilt hcfg hlog hmem
  · have hmark : n.installedMark k c = min c (n.takeInstallResult k).log.lastLogIndex := by
      unfold installedMark
      split
      · rename_i snap hsome
        exact if_neg fun hahead => hno snap ⟨hsome, hahead.1⟩
      · rfl
    rw [hmark]
    refine h.moves hcfg hlog (congrArg _ hmem) ?_
    rw [hmem]
    rfl

theorem Folded.restart {k : Nat} (h : n.Folded c) (hn : n.log.Sound)
    (hcfg : ((n.restart k).getD n).cfg = n.cfg) :
    n.FoldsOn c ((n.restart k).getD n) ((n.restart k).elim c (·.log.lastLogIndex)) := by
  cases hrestart : n.restart k with
  | none => exact ⟨h, .of_le le_rfl⟩
  | some n' =>
    rw [hrestart] at hcfg
    obtain ⟨s, -, -, hlog, hmem⟩ := restart_plain hn hrestart
    exact .of_rebuilt hcfg hlog hmem

end Node

/-! ## Runs -/

/-- The points once an action has taken place. -/
def Action.mark (σ : Sys ι) (c : ι → Nat) : Action ι → ι → Nat
  | .deliver j k =>
    match (σ j).out[k]? with
    | some (.appendEntries _ dst req) =>
      if (σ dst).Accepts req then assign c dst ((σ dst).mergedMark (c dst) ((σ dst).received req))
      else c
    | _ => c
  | .applyResult i => assign c i ((σ i).appliedMark (c i))
  | .snapshotResult i => assign c i (min (c i) (σ i).takeSnapshotResult.log.lastLogIndex)
  | .installResult i k => assign c i ((σ i).installedMark k (c i))
  | .crash i k => assign c i (((σ i).restart k).elim (c i) (·.log.lastLogIndex))
  | _ => c

/-- What a step has to meet for the memberships in effect to go on being folds. -/
def Action.KeepsFold (σ : Sys ι) (c : ι → Nat) : Action ι → Prop
  | .deliver j k => ∀ src dst req e, (σ j).out[k]? = some (.appendEntries src dst req) →
      (σ dst).Accepts req → (σ dst).log.plain.conflict ((σ dst).received req) = some e →
      -- nothing is rebuilt, so what is cut off must not have mattered
      (σ dst).membership.configIndex < e.index →
      (σ dst).foldUpTo (c dst) = (σ dst).foldUpTo (min (c dst) (e.index - 1))
  | .applyResult i => (σ i).AppliesInOrder (c i)
  | .snapshotResult i => (σ i).SnapshotKeepsFold (c i)
  | .installResult i k => (σ i).InstallKeepsFold k (c i)
  | _ => True

namespace Sys

variable {σ : Sys ι} {c : ι → Nat}

omit [Sized ι] in
theorem assign_self (c : ι → Nat) (j : ι) : assign c j (c j) = c := by
  funext i
  by_cases hi : i = j
  · simp [assign, hi]
  · simp [assign, hi]

theorem foldsOn_of_effect {a : Action ι} {j : ι} {f : Node ι → Node ι} {d : Nat}
    (h : ∀ i, (σ i).Folded (c i)) (heff : a.effect σ = some (j, f)) (hmark : a.mark σ c = assign c j d)
    (hj : (σ j).FoldsOn (c j) (f (σ j)) d) (i : ι) :
    (σ i).FoldsOn (c i) (σ.step a i) (a.mark σ c i) := by
  rw [step, heff, hmark]
  by_cases hij : i = j
  · subst hij
    simpa [assign] using hj
  · simpa [assign, hij] using ⟨h i, .of_le le_rfl⟩

theorem step_folded (hnum : ∀ i, (σ i).Numbered []) (hn : ∀ i, (σ i).log.Sound)
    (h : ∀ i, (σ i).Folded (c i)) {a : Action ι} (ha : a.KeepsLog σ) (hkeep : a.KeepsFold σ c) (i : ι) :
    (σ i).FoldsOn (c i) (σ.step a i) (a.mark σ c i) := by
  have hcfg := step_cfg hnum a
  have hcfg' : ∀ {j f}, a.effect σ = some (j, f) → (f (σ j)).cfg = (σ j).cfg := fun {j f} heff => by
    rw [← step_at heff]
    exact hcfg j
  have steady : a.Steady σ → a.mark σ c = c → (σ i).FoldsOn (c i) (σ.step a i) (a.mark σ c i) := by
    intro hs hmark
    obtain ⟨hmem, ⟨es, hlog, hes, -⟩, -⟩ := step_steady hnum hn hs i
    rw [hmark]
    exact (h i).grows (hn i) (hcfg i) (congrArg _ hmem) hlog hes (congrArg _ hmem)
  cases a with
  | deliver j k =>
    rcases deliver_cases σ j k with ⟨src, dst, req, hmsg⟩ | hs
    · have hturn := Node.handleAppendEntries_plain (hn dst) src req (ha src dst req hmsg)
      have heff := effect_deliver hmsg
      by_cases hacc : (σ dst).Accepts req
      · obtain ⟨-, hlog, hmem, -⟩ := hturn.resolve_right fun hno => hno.1 hacc
        refine foldsOn_of_effect h heff ?_ ((h dst).merge (hn dst) (hcfg' heff)
          (ha src dst req hmsg hacc) hlog hmem fun e hconflict hidx =>
            hkeep src dst req e hmsg hacc hconflict hidx) i
        simp only [Action.mark, hmsg, if_pos hacc, Msg.dst]
      · obtain ⟨-, hlog, hmem⟩ := hturn.resolve_left fun hyes => hacc hyes.1
        have hsame : Action.mark σ c (.deliver j k) = assign c dst (c dst) := by
          simp only [Action.mark, hmsg, if_neg hacc, assign_self]
        refine foldsOn_of_effect h heff hsame ?_ i
        refine (h dst).grows (hn dst) (hcfg' heff) (congrArg _ hmem) ?_ (.nil _) (congrArg _ hmem)
        rw [List.append_nil]
        exact hlog
    · refine steady hs ?_
      dsimp only [Action.mark]
      split
      · rename_i src dst req hmsg
        exact absurd hmsg (hs src dst req)
      · rfl
  | propose j cmds =>
    have hsame : Action.mark σ c (.propose j cmds) = assign c j (c j) := (assign_self c j).symm
    obtain ⟨es, hlog, hes, hmem, -⟩ := Node.handleProposals_plain (hn j) (hnum j) ha
    refine foldsOn_of_effect h rfl hsame ?_ i
    refine (h j).grows (hn j) (hcfg' rfl) ?_ hlog hes ?_
    · rw [hmem, Membership.noteAppendedConfig_eq]
    · rw [hmem, Membership.noteAppendedConfig_lineup]
  | applyResult j =>
    exact foldsOn_of_effect h rfl rfl ((h j).applyResult (hn j) (hnum j) (hcfg' rfl) hkeep) i
  | snapshotResult j =>
    exact foldsOn_of_effect h rfl rfl ((h j).snapshotResult (hn j) hkeep) i
  | installResult j k =>
    exact foldsOn_of_effect h rfl rfl ((h j).installResult (hn j) (hnum j) (hcfg' rfl) hkeep) i
  | crash j k =>
    have hrestart : ((Action.crash j k).effect σ : Option (ι × (Node ι → Node ι))) =
        some (j, fun n => (n.restart k).getD n) := rfl
    have hsame := hcfg' hrestart
    exact foldsOn_of_effect h hrestart rfl ((h j).restart (hn j) hsame) i
  | execute j fault => exact steady ha rfl
  | _ => exact steady trivial rfl

def marks : Sys ι → (ι → Nat) → List (Action ι) → ι → Nat
  | _, c, [] => c
  | σ, c, a :: as => marks (σ.step a) (a.mark σ c) as

def AlongMarks (P : Sys ι → (ι → Nat) → Action ι → Prop) :
    Sys ι → (ι → Nat) → List (Action ι) → Prop
  | _, _, [] => True
  | σ, c, a :: as => P σ c a ∧ AlongMarks P (σ.step a) (a.mark σ c) as

/-- **Memberships go on being folds** from any state in which they are. -/
theorem run_folded {as : List (Action ι)} (hnum : ∀ i, (σ i).Numbered [])
    (hn : ∀ i, (σ i).log.Sound) (h : ∀ i, (σ i).Folded (c i))
    (has : AlongMarks (fun σ c a => a.KeepsLog σ ∧ a.KeepsFold σ c) σ c as) (k : Nat) (i : ι) :
    (σ.run (as.take k) i).Folded (σ.marks c (as.take k) i) ∧
      (σ.run (as.take k) i).Retreats (σ.marks c (as.take k) i) (σ.run (as.take (k + 1)) i)
        (σ.marks c (as.take (k + 1)) i) := by
  induction as generalizing σ c k with
  | nil =>
    simp only [List.take_nil]
    exact ⟨h i, .of_le le_rfl⟩
  | cons a as ih =>
    obtain ⟨⟨ha, hkeep⟩, has⟩ := has
    have hstep := step_folded hnum hn h ha hkeep
    cases k with
    | zero => exact ⟨h i, (hstep i).retreats⟩
    | succ k =>
      exact ih (step_numbered hnum a) (step_sound hnum hn ha) (fun i => (hstep i).folded) has k

theorem start_folded (cfg : Config ι) : (Node.start cfg .empty).Folded 0 := by
  obtain ⟨hlog, hcfg, hmem⟩ := Node.start_plain cfg
  refine .of_sound hlog.sound (Nat.zero_le _) ?_
  rw [Node.foldUpTo, hlog.plain_eq, Node.foldOver, hcfg, hmem, Membership.rebase_lineup,
    (Membership.rebase_frame _ _ _).1]
  rfl

/-- **The membership in effect is a fold over the front of the log**, at every node,
throughout a run. -/
theorem folded_along (cfg : ι → Config ι) (as : List (Action ι))
    (has : AlongMarks (fun σ c a => a.KeepsLog σ ∧ a.KeepsFold σ c) (start cfg fun _ => .empty)
      (fun _ => 0) as) :
    ∃ c : Nat → ι → Nat, ∀ k i,
      ((start cfg fun _ => .empty).run (as.take k) i).Folded (c k i) ∧
      ((start cfg fun _ => .empty).run (as.take k) i).Retreats (c k i)
        ((start cfg fun _ => .empty).run (as.take (k + 1)) i) (c (k + 1) i) :=
  ⟨fun k => marks (start cfg fun _ => .empty) (fun _ => 0) (as.take k),
    run_folded (fun i => (Node.start_starts (cfg i) .empty).numbered)
      (fun i => (Node.start_plain (cfg i)).1.sound) (fun i => start_folded (cfg i)) has⟩

/-! ### A node that starts again -/

def apart : Sys (Fin 3) := start (fun i => .ofPeers i []) fun _ => .empty

def leads : List (Action (Fin 3)) :=
  [.tick 0, .tick 0, .execute 0 none, .complete 0, .execute 0 none, .complete 0,
    .applyCommitted 0 .healthy, .applyResult 0]

def changes (op : ConfigOp (Fin 3)) : List (Action (Fin 3)) :=
  [.propose 0 [.config op], .execute 0 none, .complete 0, .applyCommitted 0 .healthy, .applyResult 0]

def appliesAgain : List (Action (Fin 3)) :=
  leads ++ changes (.add ⟨1, false, false⟩) ++ .crash 0 0 :: leads ++ [.applyResult 0]

theorem folded_along_appliesAgain :
    AlongMarks (fun σ c a => a.KeepsLog σ ∧ a.KeepsFold σ c) apart (fun _ => 0) appliesAgain ∧
      ∃ c : Nat → Fin 3 → Nat, ∀ k i, (apart.run (appliesAgain.take k) i).Folded (c k i) ∧
        (apart.run (appliesAgain.take k) i).Retreats (c k i)
          (apart.run (appliesAgain.take (k + 1)) i) (c (k + 1) i) := by
  have hkeeps : AlongMarks (fun σ c a => a.KeepsLog σ ∧ a.KeepsFold σ c) apart (fun _ => 0)
      appliesAgain := by
    have hapart : (apart.run (appliesAgain.take 8) 0).NumbersApart
        [.config (.add ⟨1, false, false⟩)] := by decide +kernel
    -- elected, the entry that opens its term is applied
    refine ⟨⟨trivial, trivial⟩, ⟨trivial, trivial⟩, ⟨rfl, trivial⟩, ⟨trivial, trivial⟩, ⟨rfl, trivial⟩,
      ⟨trivial, trivial⟩, ⟨trivial, trivial⟩, ⟨trivial, ?_⟩, ?_⟩
    · change (apart.run (appliesAgain.take 7) 0).AppliesInOrder (apart.marks (fun _ => 0) (appliesAgain.take 7) 0)
      decide +kernel
    -- the learner is taken in: the next entry behind the point
    refine ⟨⟨hapart, trivial⟩, ⟨rfl, trivial⟩, ⟨trivial, trivial⟩, ⟨trivial, trivial⟩, ⟨trivial, ?_⟩,
      ⟨trivial, trivial⟩, ?_⟩
    · change (apart.run (appliesAgain.take 12) 0).AppliesInOrder (apart.marks (fun _ => 0) (appliesAgain.take 12) 0)
      decide +kernel
    -- after the restart it is there already, and is applied without effect
    refine ⟨⟨trivial, trivial⟩, ⟨trivial, trivial⟩, ⟨rfl, trivial⟩, ⟨trivial, trivial⟩, ⟨rfl, trivial⟩,
      ⟨trivial, trivial⟩, ⟨trivial, trivial⟩, ⟨trivial, ?_⟩, ⟨trivial, ?_⟩, trivial⟩
    · change (apart.run (appliesAgain.take 21) 0).AppliesInOrder (apart.marks (fun _ => 0) (appliesAgain.take 21) 0)
      decide +kernel
    · change (apart.run (appliesAgain.take 22) 0).AppliesInOrder (apart.marks (fun _ => 0) (appliesAgain.take 22) 0)
      decide +kernel
  exact ⟨hkeeps, folded_along (fun i => .ofPeers i []) appliesAgain hkeeps⟩

/-- It takes in a learner, lets it go, takes in another, and applies the first change again after a
restart. -/
def appliesOver : List (Action (Fin 3)) :=
  leads ++ changes (.add ⟨1, false, false⟩) ++ changes (.remove 1) ++
    changes (.add ⟨2, false, false⟩) ++ .crash 0 0 :: leads ++ [.applyResult 0]

/-- **A membership no front of the log accounts for**: the learner that was let go is back. -/
theorem replay_leaves_folds :
    ¬ ∃ es, es <+: (apart.run appliesOver 0).log.plain.entries ∧
      (apart.run appliesOver 0).membership.lineup =
        (apart.run appliesOver 0).foldOver (apart.run appliesOver 0).membership.base es := by
  rintro ⟨es, hes, heffect⟩
  have hlen : (apart.run appliesOver 0).log.plain.entries.length = 5 := by decide +kernel
  have hnone : ∀ k < 6, (apart.run appliesOver 0).membership.lineup ≠
      (apart.run appliesOver 0).foldOver (apart.run appliesOver 0).membership.base
        ((apart.run appliesOver 0).log.plain.entries.take k) := by decide +kernel
  have hle := hes.length_le
  refine hnone es.length (by omega) ?_
  rw [← List.prefix_iff_eq_take.mp hes]
  exact heffect

end Sys

end Raft
