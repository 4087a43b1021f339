import Raft.Election.Safety
import Raft.Replication.Chains
import Raft.Turn.LogChanges
import Raft.Turn.Roles
import Raft.Turn.Words

/-!
# Log matching

In a group with one set of voters, where nothing is compacted, two logs that hold an
entry of the same index and term hold copies of one entry there, and of one entry at
every index before.  This is true of what the logs show and of what is on disk at any
point of the queues of writes, so that crashes do not matter.

Each leader adds what it creates to a record.  A term has one leader, and a leader does
not go back behind what it has created in its term; so the index and the term of a
created entry leave no choice of the entry, nor of the term it was created behind.
-/

namespace Raft

open Function (update update_self update_idem update_of_ne update_eq_self)

variable {ι : Type} {p : ι}

open Linked (lastTag)

/-! ## Records of creations -/

/-- The index and the term of a created entry leave no choice, and terms are not 0. -/
structure LinkRecord.Sound (links : LinkRecord ι) : Prop where
  distinct : ∀ {q q' : ι} {t t' : Nat} {o o' : LogEntry ι}, links q t o → links q' t' o' →
    o.index = o'.index → o.term = o'.term → t = t' ∧ o = o'
  positive : ∀ {q : ι} {t : Nat} {o : LogEntry ι}, links q t o → 0 < o.term

theorem LinkRecord.Sound.create [DecidableEq ι] {links : LinkRecord ι} (h : links.Sound)
    {new : Nat → LogEntry ι → Prop} {term last : Nat} (hpos : 0 < term)
    (hnew : ∀ t o, new t o → o.term = term ∧ last < o.index)
    (hold : ∀ q t o, links q t o → o.term = term → o.index ≤ last)
    (hunique : ∀ t t' o o', new t o → new t' o' → o.index = o'.index → t = t' ∧ o = o') :
    LinkRecord.Sound (update links p fun t o => links p t o ∨ new t o) := by
  have hcases : ∀ {q t o}, (update links p fun t o => links p t o ∨ new t o) q t o →
      links q t o ∨ new t o := by
    intro q t o ho
    by_cases hq : q = p
    · subst hq
      rwa [update_self] at ho
    · rw [update_of_ne hq] at ho
      exact .inl ho
  -- What is new comes behind what is there.
  have hlater : ∀ {q t t' o o'}, links q t o → new t' o' → o.index = o'.index → o.term = o'.term →
      False := by
    intro q t t' o o' ho ho' hindex hterm
    have hle := hold q t o ho (hterm.trans (hnew t' o' ho').1)
    have hlt := (hnew t' o' ho').2
    omega
  refine ⟨fun {q q' t t' o o'} ho ho' hindex hterm => ?_, fun {q t o} ho => ?_⟩
  · rcases hcases ho with ho | ho <;> rcases hcases ho' with ho' | ho'
    · exact h.distinct ho ho' hindex hterm
    · exact (hlater ho ho' hindex hterm).elim
    · exact (hlater ho' ho hindex.symm hterm.symm).elim
    · exact hunique t t' o o' ho ho' hindex
  · rcases hcases ho with ho | ho
    · exact h.positive ho
    · rw [(hnew t o ho).1]
      exact hpos

theorem Contiguous.joint_unique {f : Nat} {es : List (LogEntry ι)} (h : Contiguous f es) (t : Nat) :
    ∀ u u' o o', Linked.Joint LogEntry.term t es u o → Linked.Joint LogEntry.term t es u' o' →
      o.index = o'.index → u = u' ∧ o = o' := by
  rintro u u' o o' ⟨i, hi, rfl⟩ ⟨j, hj, rfl⟩ hindex
  have hoi := h i o hi
  have hoj := h j o' hj
  obtain rfl : i = j := by omega
  exact ⟨rfl, Option.some.inj (hi.symm.trans hj)⟩

/-- A request continues a chain as its receiver keeps it, and no snapshot is sent. -/
def Msg.Carries (witness : ι → Bool) (links : LinkRecord ι) : Msg ι → Prop
  | .appendEntries _ dst req => req.Carries (CopiedFor links (witness dst))
  | .installSnapshot _ _ _ => False
  | _ => True

theorem Msg.Carries.mono {witness : ι → Bool} {links links' : LinkRecord ι} {msg : Msg ι}
    (h : msg.Carries witness links) (hle : links ≤ links') : msg.Carries witness links' := by
  cases msg with
  | appendEntries src dst req =>
    exact AppendEntriesRequest.Carries.mono h fun t e he => CopiedFor.mono he hle
  | installSnapshot src dst req => exact h.elim
  | _ => exact trivial

namespace Node

variable [DecidableEq ι]

/-- What the log and the requests of node `p` rest on. -/
structure Chains (V : Finset ι) (witness : ι → Bool) (voted : VoteRecord ι) (links : LinkRecord ι)
    (p : ι) (n : Node ι) : Prop where
  role : n.cfg.witness = witness p
  full : n.state ≠ .follower → n.cfg.witness = false
  log : n.log.Chained (Copied links n.cfg.witness)
  out : ∀ msg ∈ n.out, msg.Carries witness links
  mine : ∀ t o, links p t o → Elected V voted o.term p ∧ voted p o.term p
  candidate : n.state = .candidate → 0 < n.currentTerm ∧ ∀ t o, links p t o → o.term < n.currentTerm
  own : n.state = .leader → voted p n.currentTerm p
  leader : n.state = .leader → 0 < n.currentTerm ∧
    ∀ t o, links p t o → o.term = n.currentTerm → o.index ≤ n.log.lastLogIndex

section Chains

variable {V : Finset ι} {witness : ι → Bool} {voted voted' : VoteRecord ι}
  {links links' : LinkRecord ι} {p : ι} {n n' : Node ι} {ds : List WriteDone} {inp : Input ι}

theorem Chains.mono (h : n.Chains V witness voted links p) (hvoted : voted ≤ voted')
    (hlinks : links ≤ links') (hown : links' p = links p) : n.Chains V witness voted' links' p := by
  refine ⟨h.role, h.full, h.log.mono fun t e he => he.mono hlinks,
    fun msg hmsg => (h.out msg hmsg).mono hlinks, ?_, ?_,
    fun hlead => hvoted _ _ _ (h.own hlead), ?_⟩ <;> rw [hown]
  · intro t o ho
    exact ⟨(h.mine t o ho).1.mono hvoted, hvoted _ _ _ (h.mine t o ho).2⟩
  · exact h.candidate
  · exact h.leader

theorem Chains.same [Sized ι] (h : n.Chains V witness voted links p) (hv : n.Votes V voted p ds)
    (hcfg : n'.cfg = n.cfg) (hrole : RoleChange inp n n')
    (hgrow : n'.state = .leader → n.state = .leader ∧ n.log.lastLogIndex ≤ n'.log.lastLogIndex)
    (hlog : n'.log.Chained (Copied links n.cfg.witness))
    (hout : ∀ msg ∈ n'.out, msg ∈ n.out ∨ msg.Carries witness links) :
    n'.Chains V witness voted links p := by
  have hfull : n.cfg.witness = false ∨ n.state ≠ .follower → n.cfg.witness = false :=
    fun hor => hor.elim id h.full
  have hterm : n'.state = .leader → n'.currentTerm = n.currentTerm := fun hlead =>
    (hrole.of_leader hlead).1
  refine ⟨by rw [hcfg]; exact h.role, ?_, by rw [hcfg]; exact hlog,
    fun msg hmsg => (hout msg hmsg).elim (h.out msg) id, h.mine, ?_, fun hlead => ?_, fun hlead => ?_⟩
  · rw [hcfg]
    cases hrole with
    | same hstate =>
      rw [hstate]
      exact h.full
    | follow hstate => exact fun hne => absurd hstate hne
    | prestand hf hstate hterm | stand hf hstate hterm => exact fun _ => hfull hf.1
    | lead hstate => exact fun _ => h.full (by rw [hstate]; decide)
  · intro hcand
    cases hrole with
    | same hstate hterm =>
      rw [hterm]
      exact h.candidate (hstate ▸ hcand)
    | follow hstate hterm | prestand hf hstate hterm => cases hstate.symm.trans hcand
    | stand =>
      -- Everything the node has created is from a term it has voted in.
      refine ⟨by omega, fun t o ho => ?_⟩
      have := hv.term_le (h.mine t o ho).2
      omega
    | lead _ _ hlead => cases hlead.symm.trans hcand
  · rw [hterm hlead]
    exact h.own (hgrow hlead).1
  · obtain ⟨hwas, hle⟩ := hgrow hlead
    rw [hterm hlead]
    exact ⟨(h.leader hwas).1, fun t o ho heq => ((h.leader hwas).2 t o ho heq).trans hle⟩

omit [DecidableEq ι] in
theorem carries_of_answer {work : Deferred ι} {msg : Msg ι} {id : ι} (hmem : msg ∈ work.answer id) :
    msg.Carries witness links := by
  cases work with
  | campaign term | proposals indices => cases hmem
  | _ =>
    obtain rfl := List.mem_singleton.mp hmem
    exact trivial

theorem Utters.carries [Sized ι] {seq : Nat} {msg : Msg ι} (hutters : Utters inp n n' seq msg)
    (h : n.Chains V witness voted links p) (hpos : ∀ q t o, links q t o → 0 < o.term)
    (hmarks : n.state = .leader → ∀ peer, n.membership.isWitnessPeer peer = true →
      witness peer = true)
    (hlost : ∀ src dst req, inp ≠ .lost (.installSnapshot src dst req)) :
    msg.Carries witness links := by
  cases hutters with
  | harmless hh => cases msg <;> first | exact hh.elim | exact trivial
  | append peer req hstate hbuilds hmsg =>
    subst hmsg
    rcases hstate with hstate | ⟨src, dst, r, hinp⟩
    · have hlog := h.log
      rw [h.full (by rw [hstate]; decide)] at hlog
      exact hbuilds.carries hlog hpos (hmarks hstate peer)
    · exact absurd hinp (hlost src dst r)
  | snapshot peer req hsnap => exact absurd h.log.nosnap hsnap
  | resume d due kept w _ _ hmem => exact carries_of_answer hmem
  | _ =>
    subst msg
    exact trivial

def Creates (V : Finset ι) (witness : ι → Bool) (voted : VoteRecord ι) (links : LinkRecord ι) (p : ι)
    (n : Node ι) : Prop :=
  ∃ mine, links p ≤ mine ∧ LinkRecord.Sound (update links p mine) ∧
    n.Chains V witness voted (update links p mine) p

theorem Chains.creates (h : n.Chains V witness voted links p) (hsound : links.Sound) :
    n.Creates V witness voted links p := by
  refine ⟨links p, le_refl _, ?_, ?_⟩ <;> rwa [update_eq_self]

theorem Creates.of_update {mine : Nat → LogEntry ι → Prop}
    (h : n.Creates V witness voted (update links p mine) p) :
    ∃ mine', mine ≤ mine' ∧ LinkRecord.Sound (update links p mine') ∧
      n.Chains V witness voted (update links p mine') p := by
  simpa only [Creates, update_self, update_idem] using h

theorem Chains.create [Sized ι] {es : List (LogEntry ι)} (h : n.Chains V witness voted links p)
    (hsound : links.Sound) (hled : ∀ q t o, links q t o → Elected V voted o.term q)
    (hone : OneVote voted) (helected : Elected V voted n.currentTerm p)
    (hown : voted p n.currentTerm p) (hpos : 0 < n.currentTerm) (hfull : n.cfg.witness = false)
    (hbelow : ∀ t o, links p t o → o.term = n.currentTerm → o.index ≤ n.log.lastLogIndex)
    (hne : es ≠ []) (hterm : ∀ e ∈ es, e.term = n.currentTerm)
    (hc : Contiguous (n.log.lastLogIndex + 1) es) (hcfg : n'.cfg = n.cfg) (hstate : n'.state = .leader)
    (hcurrent : n'.currentTerm = n.currentTerm) (hlog : n'.log = (n.log.append es).2)
    (hout : ∀ msg ∈ n'.out, msg ∈ n.out ∨ msg.Carries witness links) :
    n'.Creates V witness voted links p := by
  set new := Linked.Joint LogEntry.term (lastTag LogEntry.term 0 n.log.contents) es
  have hnew : ∀ t o, new t o → o.term = n.currentTerm ∧ n.log.lastLogIndex < o.index := by
    intro t o ho
    have := (hc.index_of_mem ho.mem).1
    exact ⟨hterm o ho.mem, by omega⟩
  have hle : links ≤ update links p fun t o => links p t o ∨ new t o :=
    Ghost.le_update fun t o ho => .inl ho
  have hlinked : Linked LogEntry.term
      (Copied (update links p fun t o => links p t o ∨ new t o) false)
      (lastTag LogEntry.term 0 n.log.contents) es := by
    refine (Linked.joints LogEntry.term _ es).mono fun t e _ he => ⟨p, e, ?_, e.keptBy_false.symm⟩
    rw [update_self]
    exact .inr he
  have hlast : n'.log.lastLogIndex = n.log.lastLogIndex + es.length := by
    rw [hlog]
    exact n.log.append_lastLogIndex hne hc
  refine ⟨fun t o => links p t o ∨ new t o, fun t o ho => .inl ho, ?_, ?_⟩
  · -- Nobody else has led in the term, and the node has created nothing so far behind its log.
    refine hsound.create hpos hnew (fun q t o ho heq => ?_) (hc.joint_unique _)
    obtain rfl : q = p := (heq ▸ hled q t o ho).unique hone helected
    exact hbelow t o ho heq
  · refine ⟨by rw [hcfg]; exact h.role, fun _ => by rw [hcfg]; exact hfull, ?_, fun msg hmsg => ?_, ?_,
      ?_, fun _ => hcurrent ▸ hown, fun _ => ⟨by omega, fun t o ho _ => ?_⟩⟩
    · have hold := h.log.mono fun t e he => he.mono hle
      rw [hlog, hcfg, hfull]
      rw [hfull] at hold
      exact hold.append hne hc hlinked
    · exact ((hout msg hmsg).elim (h.out msg) id).mono hle
    · rw [update_self]
      rintro t o (ho | ho)
      · exact h.mine t o ho
      · rw [(hnew t o ho).1]
        exact ⟨helected, hown⟩
    · rw [hstate]
      exact fun hno => (by cases hno)
    · rw [update_self] at ho
      rcases ho with ho | ho
      · by_cases heq : o.term = n.currentTerm
        · have := hbelow t o ho heq
          omega
        · exact absurd (by omega) heq
      · have := (hc.index_of_mem ho.mem).2.1
        omega

/-- What an input brings to chains: requests continue one, and nothing is lost that was not
sent. -/
structure InputChains (witness : ι → Bool) (links : LinkRecord ι) (p : ι) (n : Node ι)
    (ds : List WriteDone) (inp : Input ι) : Prop where
  plain : inp.Plain
  snapshot : inp ≠ .snapshot
  request : ∀ src dst req, inp = .msg (.appendEntries src dst req) →
    req.Carries (CopiedFor links (witness p))
  lost : ∀ src dst req, inp ≠ .lost (.installSnapshot src dst req)
  marks : n.state = .leader → ∀ peer, n.membership.isWitnessPeer peer = true → witness peer = true
  written : ∀ d due kept, inp = .written d due kept → d ∈ ds

/-- **Every move keeps chains**, under some growth of the record. -/
theorem Move.chains [Sized ι] (hmove : Move inp n n') (h : n.Chains V witness voted links p)
    (hv : n.Votes V voted p ds) (hnum : n.Numbered ds) (hin : InputVotes V voted p n ds inp)
    (hic : InputChains witness links p n ds inp) (hone : OneVote voted) (hsound : links.Sound)
    (hled : ∀ q t o, links q t o → Elected V voted o.term q) :
    n'.Creates V witness voted links p := by
  have hout : ∀ msg ∈ n'.out, msg ∈ n.out ∨ msg.Carries witness links := fun msg hmsg => by
    rcases hmove.utters (show n'.Says [] 0 msg from .inl ⟨rfl, hmsg⟩) with ⟨⟨-, hold⟩ | ⟨w, -, -, hmem⟩⟩ | hnew
    · exact .inl hold
    · exact .inr (carries_of_answer hmem)
    · exact .inr (hnew.carries h (fun q t o ho => hsound.positive ho) hic.marks hic.lost)
  have hcfg := hmove.frame.cfg
  have hrole := hmove.roleChange
  by_cases hstart : n.state = .candidate ∧ n'.state = .leader
  · -- The entry that opens the term.
    obtain ⟨hstate, hlead⟩ := hstart
    obtain ⟨hterm, hled' | ⟨-, hwon, hlog⟩⟩ := hrole.of_leader hlead
    · cases hstate.symm.trans hled'
    obtain ⟨hpos, hearlier⟩ := h.candidate hstate
    refine h.create hsound hled hone (hv.elected hin hstate hwon) (hv.own_vote hin hstate hwon) hpos
      (h.full (by rw [hstate]; decide)) (fun t o ho heq => ?_) (by simp) (by simp)
      (Contiguous.singleton _) hcfg hlead hterm hlog hout
    have := hearlier t o ho
    omega
  -- Otherwise only a leader can end up as one.
  have hwas : n'.state = .leader → n.state = .leader := fun hlead =>
    (hrole.of_leader hlead).2.resolve_right fun hnew => hstart ⟨hnew.1, hlead⟩
  have same : n'.log.Chained (Copied links n.cfg.witness) →
      (n.state = .leader → n.log.lastLogIndex ≤ n'.log.lastLogIndex) →
      n'.Creates V witness voted links p := fun hlog hle =>
    (h.same hv hcfg hrole (fun hlead => ⟨hwas hlead, hle (hwas hlead)⟩) hlog hout).creates hsound
  cases hmove.logChange with
  | same hlog => exact same (hlog ▸ h.log) fun _ => hlog ▸ le_rfl
  | hardState hs hlog => exact same (hlog ▸ h.log.enqueue_hardState hs) fun _ => hlog ▸ le_rfl
  | commitIndex i hlog => exact same (hlog ▸ h.log.enqueue_commitIndex i) fun _ => hlog ▸ le_rfl
  | append es hne hterm hindex _ hlead hcurrent hlog =>
    have hleader := hwas hlead
    obtain ⟨hpos, hbelow⟩ := h.leader hleader
    exact h.create hsound hled hone (hv.leader hleader) (h.own hleader) hpos
      (h.full (by rw [hleader]; decide)) hbelow hne hterm (hindex hic.plain) hcfg hlead hcurrent hlog
      hout
  | accept src dst req hinp _ hstate hadm heq =>
    have hreq := hic.request src dst req hinp
    rw [← h.role] at hreq
    refine same ?_ fun hlead => (by cases hstate.symm.trans hlead)
    rw [heq]
    exact (acceptEntries_chained src h.log (by rw [hstate]; decide) hreq hadm).1
  | snapshot hinp => exact absurd hinp hic.snapshot
  | written d due kept hinp hlog =>
    have hd := (hnum.log.done d (List.mem_append_right _ (hic.written d due kept hinp))).2
    have hsame : (n.log.stabilize d).lastLogIndex = n.log.lastLogIndex := by
      unfold RaftLog.stabilize
      split_ifs <;> rfl
    exact same (hlog ▸ h.log.stabilize hd) fun _ => by rw [hlog, hsame]

end Chains

end Node

/-! ## Runs -/

section Runs

variable [DecidableEq ι] [Sized ι]

open Node

/-- A node's part of the record: its votes, and what it has created. -/
abbrev VotesAndLinks (ι : Type) := (Nat → ι → Prop) × (Nat → LogEntry ι → Prop)

def votedOf (g : ι → VotesAndLinks ι) : VoteRecord ι := fun i => (g i).1

def linksOf (g : ι → VotesAndLinks ι) : LinkRecord ι := fun i => (g i).2

omit [Sized ι] in
theorem votedOf_update (g : ι → VotesAndLinks ι) (i : ι) (d : VotesAndLinks ι) :
    votedOf (update g i d) = update (votedOf g) i d.1 :=
  Function.comp_update Prod.fst g i d

omit [Sized ι] in
theorem linksOf_update (g : ι → VotesAndLinks ι) (i : ι) (d : VotesAndLinks ι) :
    linksOf (update g i d) = update (linksOf g) i d.2 :=
  Function.comp_update Prod.snd g i d

def chainsInvariant (V : Finset ι) (witness : ι → Bool) :
    Ghost.Invariant ι (Node ι × List WriteDone) (VotesAndLinks ι) where
  shared g := OneVote (votedOf g) ∧ (linksOf g).Sound
  component g p s := s.1.Votes V (votedOf g) p s.2 ∧
    s.1.Chains V witness (votedOf g) (linksOf g) p
  mono {g g' i s} hle hown h := by
    have hvoted : votedOf g' i = votedOf g i := congrArg Prod.fst hown
    exact ⟨h.1.mono (fun j => (hle j).1) (by rw [hvoted]; exact h.1.kept),
      h.2.mono (fun j => (hle j).1) (fun j => (hle j).2) (congrArg Prod.snd hown)⟩

/-- No compaction, failing write, change of the membership or exactly-once command. -/
def Action.Ordinary (σ : Sys ι) : Action ι → Prop
  | .propose _ cmds => ∀ cmd ∈ cmds, cmd.isDedupCmd = false
  | .execute _ fault => fault = none
  | .applyResult i => ∀ r ∈ (σ i).apply.results.head?, ∀ op ∈ r.configCmd, op.changesMembers = false
  | .writeSnapshot _ _ | .snapshotResult _ | .installSnapshot _ _ _ _ | .installResult _ _ => False
  | _ => True

instance (σ : Sys ι) (a : Action ι) : Decidable (a.Ordinary σ) := by
  apply a.casesOn (motive := (Decidable <| ·.Ordinary σ)) <;> intros <;>
    dsimp only [Action.Ordinary] <;> infer_instance

/-- Who is taken for a witness is one. -/
def Node.MarksWitnesses (witness : ι → Bool) (n : Node ι) : Prop :=
  ∀ peer, n.membership.isWitnessPeer peer = true → witness peer = true

instance Node.MarksWitnesses.decidable [Fintype ι] (witness : ι → Bool) (n : Node ι) :
    Decidable (n.MarksWitnesses witness) :=
  inferInstanceAs (Decidable (∀ peer, n.membership.isWitnessPeer peer = true → witness peer = true))

def MarksSteadily (witness : ι → Bool) (σ : Sys ι) (a : Action ι) (i : ι) (n : Node ι) : Prop :=
  ∀ inp, a.Offers σ i inp →
    (n.state = .leader ∨ ∀ src dst req, inp ≠ .msg (.appendEntries src dst req)) →
    n.MarksWitnesses witness

section Marks

variable {witness : ι → Bool} {σ : Sys ι} {a : Action ι} {i : ι} {n n' : Node ι} {inp : Input ι}

omit [Sized ι] in
theorem Node.MarksWitnesses.congr (h : n.MarksWitnesses witness)
    (hpeers : n'.membership.peers = n.membership.peers) : n'.MarksWitnesses witness := by
  intro peer hpeer
  refine h peer ?_
  rwa [Membership.isWitnessPeer, ← hpeers]

omit [Sized ι] in
theorem MarksSteadily.congr (h : MarksSteadily witness σ a i n) (hstate : n'.state = n.state)
    (hm : n'.membership = n.membership) : MarksSteadily witness σ a i n' := by
  intro inp hinp hor
  rw [hstate] at hor
  exact (h inp hinp hor).congr (by rw [hm])

theorem Move.marksSteadily (h : MarksSteadily witness σ a i n) (hinp : a.Offers σ i inp)
    (hno : ¬ inp.Reconfigures) (hmove : Move inp n n') : MarksSteadily witness σ a i n' := by
  intro inp' hinp' hor
  obtain rfl := hinp.unique hinp'
  rcases hmove.peers hno with hpeers | ⟨hfollower, src, dst, req, heq⟩
  · refine (h inp hinp ?_).congr hpeers
    rcases hor with hlead | hor
    · refine (hmove.roleChange.of_leader hlead).2.imp_right fun ⟨_, hwon, _⟩ src dst req heq => ?_
      -- Elections are won by votes or by a completed write.
      rcases hwon with ⟨-, -, peer, asker, vreq, resp, hvote⟩ | ⟨-, d, due, kept, seq, hdone, -⟩
      · cases heq.symm.trans hvote
      · cases heq.symm.trans hdone
    · exact .inr hor
  · rcases hor with hlead | hor
    · cases hfollower.symm.trans hlead
    · exact absurd heq (hor src dst req)

end Marks

section Changes

variable {V : Finset ι} {witness : ι → Bool} {σ : Sys ι} {a : Action ι} {i : ι}
  {g : ι → VotesAndLinks ι} {voted : VoteRecord ι} {links : LinkRecord ι} {n n' : Node ι}
  {ds : List WriteDone} {inp : Input ι}

omit [DecidableEq ι] [Sized ι] in
theorem Action.Ordinary.not_reconfigures (h : a.Ordinary σ) (hinp : a.Offers σ i inp) :
    ¬ inp.Reconfigures := by
  cases a with
  | deliver j k =>
    obtain ⟨msg, -, -, rfl⟩ := hinp
    exact id
  | dropped j k =>
    obtain ⟨-, msg, -, rfl⟩ := hinp
    exact id
  | applyResult j =>
    obtain ⟨rfl, r, rest, hres, rfl⟩ := hinp
    rintro ⟨op, hop, hchanges⟩
    have := h r (by rw [hres]; rfl) op hop
    rw [hchanges] at this
    cases this
  | snapshotResult j | installResult j k => exact h.elim
  | crash j k => exact hinp.elim
  | _ =>
    obtain rfl := hinp
    exact id

omit [DecidableEq ι] [Sized ι] in
theorem Action.Ordinary.not_savesSnapshot (h : a.Ordinary σ) : ¬ a.SavesSnapshot := by
  cases a with
  | writeSnapshot j outcome | installSnapshot j k saved ok => exact fun _ => h
  | _ => exact id

omit [Sized ι] in
theorem inputChains_of_offers (h : a.Ordinary σ)
    (hI : (chainsInvariant V witness).Holds g σ.settled) (hle : linksOf g ≤ links)
    (hmarks : MarksSteadily witness σ a i n) (hinp : a.Offers σ i inp) :
    InputChains witness links i n ds inp := by
  refine ⟨?_, ?_, ?_, ?_, fun hlead => hmarks inp hinp (.inl hlead), fun d due kept heq => ?_⟩
  · cases a with
    | propose j cmds =>
      obtain rfl := hinp
      exact h
    | deliver j k =>
      obtain ⟨msg, -, -, rfl⟩ := hinp
      exact trivial
    | dropped j k =>
      obtain ⟨-, msg, -, rfl⟩ := hinp
      exact trivial
    | applyResult j =>
      obtain ⟨-, r, rest, -, rfl⟩ := hinp
      exact trivial
    | crash j k => exact hinp.elim
    | _ =>
      obtain rfl := hinp
      exact trivial
  · rintro rfl
    exact h.not_reconfigures hinp trivial
  · rintro src dst req rfl
    obtain ⟨j, hmsg, hdst⟩ := hinp.of_msg
    obtain rfl : dst = i := hdst
    have hcarries := ((hI.component j).2.out _ hmsg).mono hle
    exact hcarries
  · rintro src dst req rfl
    exact (hI.component i).2.out _ hinp.of_lost
  · subst heq
    exact absurd hinp (Action.not_offers_written σ i a d due kept)

omit [Sized ι] in
theorem elected_of_links {created : Nat → LogEntry ι → Prop} {mine : Nat → ι → Prop}
    (hI : (chainsInvariant V witness).Holds g σ.settled) (hle : votedOf g i ≤ mine)
    (hn : n.Chains V witness (update (votedOf g) i mine)
      (update (linksOf g) i created) i) :
    ∀ q t o, (update (linksOf g) i created) q t o →
      Elected V (update (votedOf g) i mine) o.term q := by
  intro q t o ho
  by_cases hq : q = i
  · subst hq
    exact (hn.mine t o ho).1
  · rw [update_of_ne hq] at ho
    exact ((hI.component q).2.mine t o ho).1.mono (Ghost.le_update hle)

theorem Node.Chains.of_log (h : n.Chains V witness voted links p) (hv : n.Votes V voted p ds)
    (hcore : { n'.toCore with
      log := n.log, apply := n.apply, deferredWrites := n.deferredWrites
      completedWriteSeq := n.completedWriteSeq, fatalErr := n.fatalErr } = n.toCore)
    (hlog : n'.log.Chained (Copied links n.cfg.witness))
    (hlast : n'.log.lastLogIndex = n.log.lastLogIndex) : n'.Chains V witness voted links p := by
  have hstate : n'.state = n.state := (congrArg Core.state hcore :)
  have hterm : n'.currentTerm = n.currentTerm := (congrArg Core.currentTerm hcore :)
  have hcfg : n'.cfg = n.cfg := (congrArg Core.cfg hcore :)
  have hout : n'.out = n.out := (congrArg Core.out hcore :)
  have hsame : RoleChange .timer n n' := .same hstate hterm
  exact h.same hv hcfg hsame (fun hlead => ⟨hstate ▸ hlead, hlast.ge⟩) hlog
    fun msg hmsg => .inl (hout ▸ hmsg)

omit [Sized ι] in
theorem Node.Chains.of_starts {cfg : Config ι} {s : Store ι} {boot : Nat} {out : List (Msg ι)}
    (hstarts : Starts cfg s boot out n) (hrole : cfg.witness = witness p)
    (hlog : n.log.Chained (Copied links cfg.witness)) (hout : ∀ msg ∈ out, msg.Carries witness links)
    (hmine : ∀ t o, links p t o → Elected V voted o.term p ∧ voted p o.term p) :
    n.Chains V witness voted links p := by
  obtain ⟨hstate, rfl, rfl, -⟩ := hstarts.anew
  refine ⟨hrole, fun hne => absurd hstate hne, hlog, hout, hmine, ?_, ?_, ?_⟩
  all_goals
    rw [hstate]
    exact fun hno => (by cases hno)

theorem Node.Chains.crash (h : n.Chains V witness voted links p) {k : Nat}
    (hr : n.restart k = some n') : n'.Chains V witness voted links p := by
  obtain ⟨s, hs, hnew⟩ := Option.bind_eq_some_iff.mp hr
  obtain ⟨hstarts, hlog⟩ := new_starts hnew
  have hstage : n.log.stage k = some s := by
    rw [RaftLog.survives, h.log.wf.running.2] at hs
    exact hs
  obtain ⟨hwf, hwhole, hsnap⟩ := h.log.of_stage hstage
  exact .of_starts hstarts h.role (.of_fresh (.of_new hwf hlog) hwhole hsnap) h.out h.mine

structure AlongChains (V : Finset ι) (witness : ι → Bool) (voted : VoteRecord ι)
    (links : LinkRecord ι) (p : ι) (n : Node ι) (ds : List WriteDone) (inp : Input ι) : Prop where
  votes : n.Votes V voted p ds
  numbered : n.Numbered ds
  chains : n.Chains V witness voted links p
  inVotes : InputVotes V voted p n ds inp
  inChains : InputChains witness links p n ds inp

/-- Completed writes are taken up: chains go on, and so does `Q`, which is anything else the moves
keep. -/
theorem Moves.along_chains {Q : (Nat → LogEntry ι → Prop) → Node ι → Prop} {d : WriteDone}
    (hv : n.Votes V voted p ds) (hnum : n.Numbered ds) (hcounts : n.CountsUnder V)
    (hm : n.MarksWitnesses witness) (hd : d ∈ ds) (hok : d.err = false)
    (hn : n.Chains V witness voted links p) (hsound : links.Sound) (hone : OneVote voted)
    (hled : ∀ q t o, links q t o → Elected V voted o.term q)
    (hQ : ∀ {due kept : List (DeferredWrite ι)} {m m' : Node ι} {mine mine' : Nat → LogEntry ι → Prop},
      ((∀ w ∈ due, w ∈ n.deferredWrites ∧ w.seq ≤ d.seq) ∧ ∀ w ∈ kept, w ∈ n.deferredWrites) →
      AlongChains V witness voted (update links p mine) p m ds (.written d due kept) →
      (mine ≤ mine' ∧ LinkRecord.Sound (update links p mine') ∧
        m'.Chains V witness voted (update links p mine') p) →
      Move (.written d due kept) m m' → Q mine m → Q mine' m')
    (h : Moves (.written d (n.deferredWrites.filter (·.seq ≤ d.seq))
      (n.deferredWrites.filter (d.seq < ·.seq))) n n') (hQn : Q (links p) n) :
    ∃ mine, links p ≤ mine ∧ LinkRecord.Sound (update links p mine) ∧
      n'.Chains V witness voted (update links p mine) p ∧ Q mine n' ∧
      n'.membership = n.membership := by
  let I : Node ι → Prop := fun m => m.membership = n.membership ∧ ∃ mine, links p ≤ mine ∧
    LinkRecord.Sound (update links p mine) ∧ m.Chains V witness voted (update links p mine) p ∧ Q mine m
  have hend := Moves.along_written (Q := I) hv hnum hcounts hd hok
    (fun {due kept m m'} hlist hI hmv hmnum hin hmove => ?_) h
    ⟨rfl, links p, le_rfl, by rwa [update_eq_self], by rwa [update_eq_self], hQn⟩
  · obtain ⟨-, -, hsame, mine, hle, hsound', hn', hQ'⟩ := hend
    exact ⟨mine, hle, hsound', hn', hQ', hsame⟩
  obtain ⟨hsame, mine, hle, hsound', hn', hQm⟩ := hI
  have hic : InputChains witness (update links p mine) p m ds (.written d due kept) := by
    refine ⟨trivial, by simp, by simp, by simp, fun _ => hm.congr (by rw [hsame]), ?_⟩
    intro d' due' kept' heq
    cases heq
    exact hd
  have hled' : ∀ q t o, (update links p mine) q t o → Elected V voted o.term q := by
    intro q t o ho
    by_cases hq : q = p
    · subst hq
      exact (hn'.mine t o ho).1
    · rw [update_of_ne hq] at ho
      exact hled q t o ho
  obtain ⟨mine', hle', hsound'', hn''⟩ :=
    (hmove.chains hn' hmv hmnum hin hic hone hsound' hled').of_update
  exact ⟨(hmove.membership_of_steady trivial).trans hsame, mine', hle.trans hle', hsound'', hn'',
    hQ hlist ⟨hmv, hmnum, hn', hin, hic⟩ ⟨hle', hsound'', hn''⟩ hmove hQm⟩

/-- **Every change keeps chains**, under some growth of the record. -/
theorem Change.chains {d : VotesAndLinks ι} {s s' : Node ι × List WriteDone} (hord : a.Ordinary σ)
    (hI : (chainsInvariant V witness).Holds g σ.settled) (hle : g i ≤ d)
    (hsh : (chainsInvariant V witness).shared (update g i d))
    (hn : (chainsInvariant V witness).component (update g i d) i s)
    (hnum : s.1.Numbered s.2) (hcounts : CountsSteadily V σ a i s.1)
    (hmarks : MarksSteadily witness σ a i s.1) (h : Change a (a.Offers σ i) s s') :
    ∃ d', d ≤ d' ∧ (chainsInvariant V witness).shared (update g i d') ∧
      (chainsInvariant V witness).component (update g i d') i s' ∧
      CountsSteadily V σ a i s'.1 ∧ MarksSteadily witness σ a i s'.1 := by
  simp only [chainsInvariant, votedOf_update, linksOf_update] at hsh hn ⊢
  obtain ⟨hone, hsound⟩ := hsh
  obtain ⟨hv, hn⟩ := hn
  have hIv : (votesInvariant V).Holds (votedOf g) σ.settled :=
    ⟨hI.shared.1, fun j => (hI.component j).1⟩
  obtain ⟨mine, hmine, hone', hv', hcounts'⟩ := Change.votes hIv hle.1 hone hv hnum hcounts h
  -- The votes have been dealt with; the record of creations grows by itself.
  suffices hgoal : s'.1.Creates V witness (update (votedOf g) i d.1) (update (linksOf g) i d.2) i ∧
      MarksSteadily witness σ a i s'.1 by
    obtain ⟨hcreates, hmarks'⟩ := hgoal
    obtain ⟨created, hcreated, hsound', hn'⟩ := hcreates.of_update
    refine ⟨(mine, created), ⟨hmine, hcreated⟩, ⟨hone', hsound'⟩, ⟨hv', ?_⟩, hcounts', hmarks'⟩
    refine hn'.mono (fun j => ?_) (le_refl _) rfl
    by_cases hj : j = i
    · subst hj
      rwa [update_self, update_self]
    · rw [update_of_ne hj, update_of_ne hj]
  have hlinks : linksOf g ≤ update (linksOf g) i d.2 := Ghost.le_update hle.2
  cases h with
  | move hinp hmove =>
    exact ⟨hmove.chains hn hv hnum (inputVotes_of_offers hIv hle.1 hcounts hinp)
      (inputChains_of_offers hord hI hlinks hmarks hinp) hone hsound (elected_of_links hI hle.1 hn),
      Move.marksSteadily hmarks hinp (hord.not_reconfigures hinp) hmove⟩
  | @written n n' ds dn ha hd hok hmoves =>
    obtain ⟨j, rfl⟩ := ha
    have hm : n.MarksWitnesses witness := hmarks .timer rfl (.inr fun _ _ _ hno => by cases hno)
    obtain ⟨created, hcreated, hsound', hn', -, hsame⟩ := Moves.along_chains (Q := fun _ _ => True) hv
      hnum (hcounts ⟨.timer, rfl, trivial⟩) hm hd hok hn hsound hone (elected_of_links hI hle.1 hn)
      (fun _ _ _ _ _ => trivial) hmoves trivial
    exact ⟨⟨created, hcreated, hsound', hn'⟩, fun _ _ _ => hm.congr (by rw [hsame])⟩
  | writeFailed _ _ h =>
    have hlog : _ = _ := congrArg Core.log h
    refine ⟨(hn.of_log hv (by rw [h]) ?_ ?_).creates hsound,
      hmarks.congr (congrArg Core.state h :) (congrArg Core.membership h :)⟩
    · rw [hlog]
      exact hn.log
    · rw [hlog]
  | collect n =>
    exact ⟨Chains.creates (hn.of_log hv rfl hn.log.collect rfl) hsound, hmarks.congr rfl rfl⟩
  | settle n dn ds => exact ⟨hn.creates hsound, hmarks⟩
  | execute n ds j fault ha =>
    subst ha
    obtain rfl : fault = none := hord
    exact ⟨Chains.creates (hn.of_log hv rfl hn.log.execute rfl) hsound, hmarks.congr rfl rfl⟩
  | beside h =>
    obtain ⟨apply, snapshots, log, rfl | ⟨hsaves, -⟩⟩ := h
    · exact ⟨Chains.creates (hn.of_log hv rfl hn.log rfl) hsound, hmarks.congr rfl rfl⟩
    · exact absurd hsaves hord.not_savesSnapshot
  | crash j k ha hn' =>
    subst ha
    exact ⟨(hn.crash hn').creates hsound, fun inp hinp => hinp.elim⟩

end Changes

namespace Sys

variable {V : Finset ι} {cfg : ι → Config ι}

/-- All nodes count the voters `V`, and nothing is compacted, reconfigured or fails to be
written. -/
def Ordinary (V : Finset ι) (witness : ι → Bool) (σ : Sys ι) (a : Action ι) : Prop :=
  CountsUnder V σ a ∧ (∀ i, (σ i).MarksWitnesses witness) ∧ a.Ordinary σ

instance [Fintype ι] (V : Finset ι) (witness : ι → Bool) (σ : Sys ι) (a : Action ι) :
    Decidable (Ordinary V witness σ a) :=
  have (i : ι) : Decidable ((σ i).MarksWitnesses witness) := Node.MarksWitnesses.decidable _ (σ i)
  inferInstanceAs (Decidable (CountsUnder V σ a ∧ (∀ i, (σ i).MarksWitnesses witness) ∧ a.Ordinary σ))

theorem start_chains (hid : ∀ i, (cfg i).id = i) :
    (chainsInvariant V fun i => (cfg i).witness).Holds (fun _ => ⟨fun _ _ => False, fun _ _ => False⟩)
      (start cfg fun _ => .empty).settled := by
  have hvotes : (votesInvariant V).Holds _ (start cfg fun _ => .empty).settled := start_holds hid
  refine ⟨⟨hvotes.shared, ⟨fun h => h.elim, fun h => h.elim⟩⟩, fun i => ⟨hvotes.component i, ?_⟩⟩
  have hfresh := RaftLog.Fresh.of_new Store.empty_wf (Node.start_log (cfg i))
  exact .of_starts (start_starts (cfg i) .empty) rfl (.of_fresh hfresh (.nil _) rfl)
    (fun msg hmsg => (by cases hmsg)) fun _ _ h => h.elim

theorem run_chains (as : List (Action ι)) (hid : ∀ i, (cfg i).id = i)
    (hord : Along (Ordinary V fun i => (cfg i).witness) (start cfg fun _ => .empty) as) :
    ∃ g, (chainsInvariant V fun i => (cfg i).witness).Holds g
      ((start cfg fun _ => .empty).run as).settled := by
  obtain ⟨g, -, hg, -⟩ := run_holds (chainsInvariant V fun i => (cfg i).witness)
    (Ordinary V fun i => (cfg i).witness)
    (fun σ a i n => CountsSteadily V σ a i n ∧ MarksSteadily (fun i => (cfg i).witness) σ a i n)
    (fun σ a i h => ⟨fun _ => h.1 i, fun _ _ _ => h.2.1 i⟩)
    (fun hP hI hle hsh hn hnum hT h => Change.chains hP.2.2 hI hle hsh hn hnum hT.1 hT.2 h)
    as _ _ (fun i => (start_starts _ _).numbered) (start_chains hid) hord
  exact ⟨g, hg⟩

/-- **Log matching**: two logs, in memory or on disk, that hold an entry of the same index and
term keep one and the same entry there and at every index before. -/
theorem log_matching (cfg : ι → Config ι) (hid : ∀ i, (cfg i).id = i) (as : List (Action ι))
    (hord : Along (Ordinary V fun i => (cfg i).witness) (start cfg fun _ => .empty) as) {i j : ι}
    {k k' : Nat} {e e' : LogEntry ι}
    (he : e ∈ ((start cfg fun _ => .empty).run as i).log.kept k)
    (he' : e' ∈ ((start cfg fun _ => .empty).run as j).log.kept k') (hindex : e.index = e'.index)
    (hterm : e.term = e'.term) :
    (∃ o : LogEntry ι, e = o.keptBy (cfg i).witness ∧ e' = o.keptBy (cfg j).witness) ∧
    ∀ index, 0 < index → index ≤ e.index →
      ∃ x ∈ ((start cfg fun _ => .empty).run as i).log.kept k,
        ∃ x' ∈ ((start cfg fun _ => .empty).run as j).log.kept k', x.index = index ∧
          x'.index = index ∧ ∃ o : LogEntry ι, x = o.keptBy (cfg i).witness ∧
            x' = o.keptBy (cfg j).witness := by
  obtain ⟨g, hg⟩ := run_chains as hid hord
  generalize (start cfg fun _ => .empty).run as = σ at hg he he' ⊢
  obtain ⟨s, hs, hkept⟩ := RaftLog.exists_stage_of_mem_kept he
  obtain ⟨s', hs', hkept'⟩ := RaftLog.exists_stage_of_mem_kept he'
  rw [hkept] at he ⊢
  rw [hkept'] at he' ⊢
  have hi : (σ i).Chains V _ _ _ i := (hg.component i).2
  have hj : (σ j).Chains V _ _ _ j := (hg.component j).2
  have hwhole := (hi.log.of_stage hs).2.1
  have hwhole' := (hj.log.of_stage hs').2.1
  rw [hi.role] at hwhole
  rw [hj.role] at hwhole'
  obtain ⟨-, -, hat⟩ := hwhole.contiguous.index_of_mem he
  obtain ⟨-, -, hat'⟩ := hwhole'.contiguous.index_of_mem he'
  rw [← hindex] at hat'
  -- Index and term of a created entry leave no choice.
  have hunique : ∀ (m : Nat) a b t t', s.entries[m]? = some a → s'.entries[m]? = some b →
      Copied (linksOf g) (cfg i).witness t a → Copied (linksOf g) (cfg j).witness t' b →
      a.term = b.term → t = t' ∧ ∃ o : LogEntry ι, a = o.keptBy (cfg i).witness ∧
        b = o.keptBy (cfg j).witness := by
    rintro m a b t t' ha hb ⟨q, o, hlink, rfl⟩ ⟨q', o', hlink', rfl⟩ htag
    have hia := hwhole.contiguous m _ ha
    have hib := hwhole'.contiguous m _ hb
    rw [LogEntry.keptBy_index] at hia hib
    rw [LogEntry.keptBy_term, LogEntry.keptBy_term] at htag
    obtain ⟨rfl, rfl⟩ := hg.shared.2.distinct hlink hlink' (by omega) htag
    exact ⟨rfl, o, rfl, rfl⟩
  refine ⟨?_, fun index hpos hle => ?_⟩
  · obtain ⟨x, x', hx, hx', -, ho⟩ := Linked.agree hwhole.linked hwhole'.linked hunique hat hat' hterm
      _ le_rfl
    cases hat.symm.trans hx
    cases hat'.symm.trans hx'
    exact ho
  · obtain ⟨x, x', hx, hx', -, o, hxo, hxo'⟩ := Linked.agree hwhole.linked hwhole'.linked hunique hat
      hat' hterm (index - 1) (by omega)
    have hxi := hwhole.contiguous _ x hx
    have hxi' := hwhole'.contiguous _ x' hx'
    exact ⟨x, List.mem_of_getElem? hx, x', List.mem_of_getElem? hx', by omega, by omega, o, hxo, hxo'⟩

/-- Node 0 has been elected, and its two entries reach the other nodes. -/
def replicatesTwo : List (Action (Fin 3)) :=
  electsNode0 ++ [.propose 0 [.user [7]], .deliver 0 6, .deliver 0 7]

/-- Node 1 has them in memory, and so the same first entry. -/
theorem log_matching_of_two :
    ∃ x ∈ ((start (Config.ofSize 3) fun _ => .empty).run replicatesTwo 0).log.kept 4,
      ∃ x' ∈ ((start (Config.ofSize 3) fun _ => .empty).run replicatesTwo 1).log.kept 4,
        x.index = 1 ∧ x'.index = 1 ∧ ∃ o : LogEntry (Fin 3), x = o.keptBy false ∧
          x' = o.keptBy false := by
  have hmeet : (⟨2, 1, .user [7]⟩ : LogEntry (Fin 3)) ∈
        ((start (Config.ofSize 3) fun _ => .empty).run replicatesTwo 0).log.kept 4 ∧
      (⟨2, 1, .user [7]⟩ : LogEntry (Fin 3)) ∈
        ((start (Config.ofSize 3) fun _ => .empty).run replicatesTwo 1).log.kept 4 := by
    decide +kernel
  exact (log_matching (V := Finset.univ) (Config.ofSize 3) (fun _ => rfl) replicatesTwo
    (by decide +kernel) hmeet.1 hmeet.2 rfl rfl).2 1 (by decide) (by decide)

def witnessGroup (i : Fin 3) : Config (Fin 3) :=
  { Config.ofSize 3 i with
    witness := i = 2
    peers := ((List.finRange 3).filter (· ≠ i)).map fun j => ⟨j, true, j = 2⟩ }

/-- A witness has an entry of the same index and term as a full node, but not its
command. -/
theorem witness_lacks_command :
    Along (Ordinary Finset.univ fun i => (witnessGroup i).witness)
      (start witnessGroup fun _ => .empty) replicatesTwo ∧
    ∃ e ∈ ((start witnessGroup fun _ => .empty).run replicatesTwo 1).log.contents,
      ∃ e' ∈ ((start witnessGroup fun _ => .empty).run replicatesTwo 2).log.contents,
        e.index = e'.index ∧ e.term = e'.term ∧ e.command ≠ e'.command :=
  ⟨by decide +kernel, ⟨2, 1, .user [7]⟩, by decide +kernel, ⟨2, 1, .user []⟩, by decide +kernel, rfl,
    rfl, by decide⟩

end Sys

end Runs

end Raft
