import Raft.Types

/-!
# Flexible quorums

How many of a group's voters a decision needs.  A group may trade the size of
its commit quorum against the size of its election quorum; every decision goes
through `quorumNeeded`, which takes the stricter of the policy in effect and the
policy the log holds unapplied.
-/

namespace Raft

variable {ι : Type} [DecidableEq ι] {q total : Nat} {E S V : Finset ι}

/-- Which of the two quorums a decision needs. -/
inductive QuorumKind
  | commitQuorum
  | electionQuorum
  deriving DecidableEq, Repr

/-- How many of `total` voters an entry must reach under policy `q`. -/
def commitQuorumFor (q total : Nat) : Nat :=
  if total = 0 then 0
  else if q = 0 then total / 2 + 1
  else min q total

/-- How many of `total` voters a candidate needs under policy `q`. -/
def electionQuorumFor (q total : Nat) : Nat :=
  if total = 0 then 0
  else max (total - commitQuorumFor q total + 1) (total / 2 + 1)

/-- The stricter of the sizes that the applied and the latest policy ask for. -/
def quorumNeeded (kind : QuorumKind) (applied latest total : Nat) : Nat :=
  match kind with
  | .electionQuorum => max (electionQuorumFor applied total) (electionQuorumFor latest total)
  | .commitQuorum => max (commitQuorumFor applied total) (commitQuorumFor latest total)

/-- The check before a policy is proposed: the policy, or the text of the refusal. -/
def setCommitQuorum (voters : Nat) (quorum : Int) : Except String Nat :=
  if quorum < 0 then
    .error "raft: SetCommitQuorum: quorum must not be negative (0 means a majority)"
  else if quorum > voters then
    .error s!"raft: SetCommitQuorum: quorum {quorum} exceeds the {voters} voters"
  else .ok quorum.toNat

/-- Enough of the voters `V` are in `S` for a decision of the given kind. -/
def Reaches (kind : QuorumKind) (applied latest : Nat) (V S : Finset ι) : Prop :=
  quorumNeeded kind applied latest V.card ≤ (V ∩ S).card
  deriving Decidable

theorem half_lt_electionQuorumFor (h : 0 < total) : total / 2 < electionQuorumFor q total := by
  unfold electionQuorumFor
  split_ifs <;> omega

theorem lt_commitQuorumFor_add_electionQuorumFor (h : 0 < total) :
    total < commitQuorumFor q total + electionQuorumFor q total := by
  unfold electionQuorumFor
  split_ifs <;> omega

/-- A policy counts as itself when the log holds no other. -/
@[simp] theorem quorumNeeded_self_commit (q total : Nat) :
    quorumNeeded .commitQuorum q q total = commitQuorumFor q total := by
  simp [quorumNeeded]

@[simp] theorem quorumNeeded_self_election (q total : Nat) :
    quorumNeeded .electionQuorum q q total = electionQuorumFor q total := by
  simp [quorumNeeded]

theorem half_lt_quorumNeeded_election (applied latest : Nat) (h : 0 < total) :
    total / 2 < quorumNeeded .electionQuorum applied latest total :=
  lt_of_lt_of_le (half_lt_electionQuorumFor h) (le_max_left _ _)

theorem inter_nonempty_of_card {c e : Nat} (hc : c ≤ (V ∩ S).card) (he : e ≤ (V ∩ E).card)
    (h : V.card < c + e) : (V ∩ S ∩ (V ∩ E)).Nonempty :=
  Finset.inter_nonempty_of_card_lt_card_add_card Finset.inter_subset_left
    Finset.inter_subset_left (by omega)

theorem elect_inter_elect {E' : Finset ι} {a l a' l' : Nat} (hV : V.Nonempty)
    (h : Reaches .electionQuorum a l V E) (h' : Reaches .electionQuorum a' l' V E') :
    (V ∩ E ∩ (V ∩ E')).Nonempty := by
  have hpos : 0 < V.card := hV.card_pos
  have h₁ := half_lt_quorumNeeded_election a l hpos
  have h₂ := half_lt_quorumNeeded_election a' l' hpos
  exact inter_nonempty_of_card h h' (by omega)

theorem commit_inter_elect_of_mem {a l a' l' : Nat} (hV : V.Nonempty) (hq : q = a ∨ q = l)
    (hq' : q = a' ∨ q = l') (hS : Reaches .commitQuorum a l V S)
    (hE : Reaches .electionQuorum a' l' V E) : (V ∩ S ∩ (V ∩ E)).Nonempty := by
  have hlt := lt_commitQuorumFor_add_electionQuorumFor (q := q) hV.card_pos
  -- Each side needs the stricter of two sizes, so at least the size `q` asks for.
  have hcommit : commitQuorumFor q V.card ≤ quorumNeeded .commitQuorum a l V.card := by
    rcases hq with rfl | rfl
    · exact le_max_left _ _
    · exact le_max_right _ _
  have helect : electionQuorumFor q V.card ≤ quorumNeeded .electionQuorum a' l' V.card := by
    rcases hq' with rfl | rfl
    · exact le_max_left _ _
    · exact le_max_right _ _
  exact inter_nonempty_of_card (hcommit.trans hS) (helect.trans hE) hlt

/-- **Quorum intersection for every policy**: where two nodes count the same voters by policies with
one in common, a set that commits by the first meets one that elects by the second, and so do two
that elect. -/
theorem quorums_meet {V : Finset ι} {a l a' l' : Nat} (hV : V.Nonempty)
    (hshare : a = a' ∨ a = l' ∨ l = a' ∨ l = l') :
    (∀ S E : Finset ι, Reaches .commitQuorum a l V S → Reaches .electionQuorum a' l' V E →
      (V ∩ S ∩ (V ∩ E)).Nonempty) ∧
    ∀ E E' : Finset ι, Reaches .electionQuorum a l V E → Reaches .electionQuorum a' l' V E' →
      (V ∩ E ∩ (V ∩ E')).Nonempty := by
  refine ⟨fun S E hS hE => ?_, fun E E' hE hE' => elect_inter_elect hV hE hE'⟩
  rcases hshare with rfl | rfl | rfl | rfl
  · exact commit_inter_elect_of_mem hV (.inl rfl) (.inl rfl) hS hE
  · exact commit_inter_elect_of_mem hV (.inl rfl) (.inr rfl) hS hE
  · exact commit_inter_elect_of_mem hV (.inr rfl) (.inl rfl) hS hE
  · exact commit_inter_elect_of_mem hV (.inr rfl) (.inr rfl) hS hE

/-- Five voters on their way from a commit quorum of two to one of four, of which the electing
node has never heard. -/
theorem quorums_meet_two_then_four :
    Reaches .commitQuorum 2 4 ({1, 2, 3, 4, 5} : Finset Nat) {1, 2, 3, 4} ∧
      Reaches .electionQuorum 2 2 ({1, 2, 3, 4, 5} : Finset Nat) {2, 3, 4, 5} ∧
      (({1, 2, 3, 4, 5} : Finset Nat) ∩ {1, 2, 3, 4} ∩
        ({1, 2, 3, 4, 5} ∩ {2, 3, 4, 5})).Nonempty := by
  have hS : Reaches .commitQuorum 2 4 ({1, 2, 3, 4, 5} : Finset Nat) {1, 2, 3, 4} := by decide
  have hE : Reaches .electionQuorum 2 2 ({1, 2, 3, 4, 5} : Finset Nat) {2, 3, 4, 5} := by decide
  exact ⟨hS, hE, (quorums_meet (by decide) (.inl rfl)).1 _ _ hS hE⟩

/-- Committing and electing sets meet, under either of two voter sets. -/
structure CrossIntersect (q : Nat) (V W : Finset ι) : Prop where
  commit_left : ∀ S ⊆ V, ∀ E ⊆ W, Reaches .commitQuorum q q V S →
    Reaches .electionQuorum q q W E → (S ∩ E).Nonempty
  commit_right : ∀ S ⊆ W, ∀ E ⊆ V, Reaches .commitQuorum q q W S →
    Reaches .electionQuorum q q V E → (S ∩ E).Nonempty
  elect : ∀ U ∈ [V, W], ∀ U' ∈ [V, W], ∀ E ⊆ U, ∀ E' ⊆ U', Reaches .electionQuorum q q U E →
    Reaches .electionQuorum q q U' E' → (E ∩ E').Nonempty

section OneApart

variable {V U : Finset ι} {v : ι} {q : Nat}

/-- A policy is accepted by one of the two groups that a single change turns
into each other. -/
def AcceptedAround (V : Finset ι) (v : ι) (q : Nat) : Prop :=
  setCommitQuorum V.card q = .ok q ∨ setCommitQuorum (insert v V).card q = .ok q

theorem setCommitQuorum_ok_iff {voters : Nat} : setCommitQuorum voters q = .ok q ↔ q ≤ voters := by
  unfold setCommitQuorum
  split_ifs with h₁ h₂
  · omega
  · simp only [false_iff]
    omega
  · simp only [Int.toNat_natCast, true_iff]
    omega

theorem acceptedAround_iff (hv : v ∉ V) : AcceptedAround V v q ↔ q ≤ V.card + 1 := by
  simp only [AcceptedAround, setCommitQuorum_ok_iff, Finset.card_insert_of_notMem hv]
  omega

theorem reaches_subset_iff {kind : QuorumKind} (hS : S ⊆ U) :
    Reaches kind q q U S ↔ quorumNeeded kind q q U.card ≤ S.card := by
  rw [Reaches, Finset.inter_eq_right.mpr hS]

theorem elect_inter_of_sizes {W E' : Finset ι} (hU : U ⊆ W) (hE : E ⊆ U) (hE' : E' ⊆ W)
    (h : W.card < electionQuorumFor q U.card + electionQuorumFor q W.card)
    (hr : Reaches .electionQuorum q q U E) (hr' : Reaches .electionQuorum q q W E') :
    (E ∩ E').Nonempty := by
  rw [reaches_subset_iff hE, quorumNeeded_self_election] at hr
  rw [reaches_subset_iff hE', quorumNeeded_self_election] at hr'
  exact Finset.inter_nonempty_of_card_lt_card_add_card (hE.trans hU) hE' (by omega)

theorem crossIntersect_of_sizes (hv : v ∉ V) (hne : V.Nonempty)
    (h₁ : V.card + 1 < commitQuorumFor q V.card + electionQuorumFor q (V.card + 1))
    (h₂ : V.card + 1 < commitQuorumFor q (V.card + 1) + electionQuorumFor q V.card)
    (h₃ : V.card + 1 < electionQuorumFor q V.card + electionQuorumFor q (V.card + 1)) :
    CrossIntersect q V (insert v V) := by
  have hcard : (insert v V).card = V.card + 1 := Finset.card_insert_of_notMem hv
  have hVW : V ⊆ insert v V := Finset.subset_insert v V
  have hself : ∀ U : Finset ι, U.Nonempty →
      U.card < electionQuorumFor q U.card + electionQuorumFor q U.card := by
    intro U hU
    have := half_lt_electionQuorumFor (q := q) hU.card_pos
    omega
  refine ⟨fun S hS E hE hrS hrE => ?_, fun S hS E hE hrS hrE => ?_,
    fun U hU U' hU' E hE E' hE' hrE hrE' => ?_⟩
  · rw [reaches_subset_iff hS, quorumNeeded_self_commit] at hrS
    rw [reaches_subset_iff hE, quorumNeeded_self_election, hcard] at hrE
    exact Finset.inter_nonempty_of_card_lt_card_add_card (hS.trans hVW) hE (by omega)
  · rw [reaches_subset_iff hS, quorumNeeded_self_commit, hcard] at hrS
    rw [reaches_subset_iff hE, quorumNeeded_self_election] at hrE
    exact Finset.inter_nonempty_of_card_lt_card_add_card hS (hE.trans hVW) (by omega)
  · simp only [List.mem_cons, List.not_mem_nil, or_false] at hU hU'
    rcases hU with rfl | rfl <;> rcases hU' with rfl | rfl
    · exact elect_inter_of_sizes subset_rfl hE hE' (hself _ hne) hrE hrE'
    · exact elect_inter_of_sizes hVW hE hE' (by rw [hcard]; exact h₃) hrE hrE'
    · rw [Finset.inter_comm]
      exact elect_inter_of_sizes hVW hE' hE (by rw [hcard]; exact h₃) hrE' hrE
    · exact elect_inter_of_sizes subset_rfl hE hE' (hself _ (Finset.insert_nonempty v V)) hrE hrE'

theorem not_crossIntersect_empty (W : Finset ι) : ¬ CrossIntersect q ∅ W := by
  intro h
  have hr : Reaches .electionQuorum q q (∅ : Finset ι) ∅ := by
    simp [Reaches, electionQuorumFor]
  have hmeet := h.elect ∅ (by simp) ∅ (by simp) ∅ subset_rfl ∅ subset_rfl hr hr
  simp at hmeet

theorem not_crossIntersect_of_le_half (hv : v ∉ V) (hq : 0 < q) (hle : q ≤ (V.card + 1) / 2) :
    ¬ CrossIntersect q V (insert v V) := by
  intro h
  obtain ⟨A, hA, hAcard⟩ := Finset.exists_subset_card_eq (s := V) (n := q - 1) (by omega)
  have hvA : v ∉ A := fun hmem => hv (hA hmem)
  have hS : (insert v A).card = q := by
    rw [Finset.card_insert_of_notMem hvA]
    omega
  have hE : (V \ A).card = V.card + 1 - q := by
    rw [Finset.card_sdiff_of_subset hA]
    omega
  have hmeet := h.commit_right (insert v A) (Finset.insert_subset_insert v hA) (V \ A)
    Finset.sdiff_subset
    (by
      rw [reaches_subset_iff (Finset.insert_subset_insert v hA), quorumNeeded_self_commit, hS,
        commitQuorumFor]
      split_ifs <;> omega)
    (by
      rw [reaches_subset_iff Finset.sdiff_subset, quorumNeeded_self_election, hE,
        electionQuorumFor, commitQuorumFor]
      split_ifs <;> omega)
  obtain ⟨x, hx⟩ := hmeet
  simp only [Finset.mem_inter, Finset.mem_insert, Finset.mem_sdiff] at hx
  rcases hx with ⟨rfl | hxA, hxV, hxnA⟩
  · exact hv hxV
  · exact hxnA hxA

theorem sizes_of_policy {n : Nat} (hn : 0 < n) (hq : q ≤ n + 1) (hpol : q = 0 ∨ (n + 1) / 2 < q) :
    n + 1 < commitQuorumFor q n + electionQuorumFor q (n + 1) ∧
      n + 1 < commitQuorumFor q (n + 1) + electionQuorumFor q n ∧
      n + 1 < electionQuorumFor q n + electionQuorumFor q (n + 1) := by
  have h₀ : n ≠ 0 := by omega
  have h₁ : n + 1 ≠ 0 := by omega
  simp only [electionQuorumFor, commitQuorumFor, if_neg h₀, if_neg h₁]
  refine ⟨?_, ?_, ?_⟩ <;> split_ifs <;> omega

/-- **Quorum intersection across one change** survives exactly under policies that ask for
more than half of the larger voter set, provided the smaller one has a voter. -/
theorem crossIntersect_iff (hv : v ∉ V) (hq : AcceptedAround V v q) :
    CrossIntersect q V (insert v V) ↔ V.Nonempty ∧ (q = 0 ∨ (V.card + 1) / 2 < q) := by
  rw [acceptedAround_iff hv] at hq
  constructor
  · intro h
    refine ⟨?_, ?_⟩
    · rw [Finset.nonempty_iff_ne_empty]
      rintro rfl
      exact not_crossIntersect_empty _ h
    · by_contra hcon
      simp only [not_or, not_lt] at hcon
      exact not_crossIntersect_of_le_half hv (by omega) hcon.2 h
  · rintro ⟨hne, hpol⟩
    obtain ⟨h₁, h₂, h₃⟩ := sizes_of_policy hne.card_pos hq hpol
    exact crossIntersect_of_sizes hv hne h₁ h₂ h₃

end OneApart

/-- A group of four that commits on two admits a fifth: two commit while three others elect. -/
theorem not_crossIntersect_two_of_four :
    AcceptedAround ({1, 2, 3, 4} : Finset Nat) 5 2 ∧
      ¬ CrossIntersect 2 ({1, 2, 3, 4} : Finset Nat) (insert 5 {1, 2, 3, 4}) := by
  refine ⟨?_, ?_⟩
  · rw [acceptedAround_iff (by decide)]
    decide
  · exact not_crossIntersect_of_le_half (by decide) (by decide) (by decide)

/-- The condition is met by the majority policy of three voters that take in a
fourth. -/
theorem crossIntersect_majority_of_three :
    CrossIntersect 0 ({1, 2, 3} : Finset Nat) (insert 4 {1, 2, 3}) :=
  (crossIntersect_iff (by decide) ((acceptedAround_iff (by decide)).mpr (by decide))).mpr
    (by decide)

end Raft
