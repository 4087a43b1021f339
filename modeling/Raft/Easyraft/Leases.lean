import Raft.Easyraft.Replicas

/-!
# Leases that fall due

The sweeper of a leader reads which leases are due by its clock, and proposes to revoke each of
them.  The revocation names the lease and nothing else, so it is carried out whatever has become of
the deadline by the time it is applied.
-/

namespace Raft.Easyraft

open Std

variable {env : Env} {es : List Entry} {s : Store} {e : Entry} {id p q : Nat} {t : Int64}

/-- The leases whose deadline has passed, oldest first. -/
def Store.dueLeases (s : Store) (nowMillis : Int64) : List Nat :=
  s.leases.keys.filter fun id => (s.leases[id]?).any (·.expiresAtMillis ≤ nowMillis)

def revocation (id : Nat) : Command :=
  .single { Operation.on .leaseRevoke ⟨"", ""⟩ [] "" with lease := id }

/-- The lease is there, and falls due only after `t`. -/
def Store.RunsPast (s : Store) (id : Nat) (t : Int64) : Prop :=
  ∃ held, s.leases[id]? = some held ∧ t < held.expiresAtMillis

/-- The entry grants the lease, renews it, or replaces all of them by an import. -/
def Entry.Renews (env : Env) (s : Store) (e : Entry) (id : Nat) : Prop :=
  (∃ o, e.cmd = some (.single o) ∧
    (o.op = .leaseGrant ∧ e.index = id ∨ o.op = .leaseKeepAlive ∧ o.lease = id)) ∨
  s.imports env e ≠ none

theorem leaseTimes_revoked (s : Store) (id j rev : Nat) (held : LeaseState) :
    (Store.advance { s.deleteLeaseKeys id held with
      leases := (s.deleteLeaseKeys id held).leases.erase id } rev).leaseTimes j =
        if id = j then none else s.leaseTimes j := by
  change (((s.deleteLeaseKeys id held).leases.erase id)[j]?).map _ = _
  rw [(deleteLeaseKeys_cleared s id held).leases, ExtTreeMap.getElem?_erase]
  simp only [Std.compare_eq_iff_eq]
  split_ifs <;> rfl

theorem leaseTimes_applyEntry (h : ¬ e.Renews env s id) :
    (s.applyEntry env e).1.leaseTimes id = s.leaseTimes id ∨ (s.applyEntry env e).1.leaseTimes id = none := by
  refine applyEntry_rule (P := fun s' _ => s'.leaseTimes id = s.leaseTimes id ∨ s'.leaseTimes id = none)
    env s e (.inl rfl) fun s' hout => ?_
  suffices htimes : s'.leaseTimes id = s.leaseTimes id ∨ s'.leaseTimes id = none from htimes
  cases hout with
  | steps hx hallowed =>
    have hsame := foldl_step_beside hallowed
    rw [hx] at hsame
    exact .inl (congrArg (·.1 id) hsame)
  | rolledBack cmds => exact .inl (congrArg (·.1 id) (rolledBack_beside env e.index _ cmds))
  | staged => exact .inl rfl
  | replaced _ hdone => exact absurd (.inr (hdone ▸ Option.some_ne_none _)) h
  | @lease o hcmd =>
    rcases applyLeaseCommand_cases e.index { s with pendingEvents := [] } o with
      ⟨res, heq⟩ | ⟨id', held, res, hset, heq⟩ | ⟨held, -, heq⟩ <;> rw [heq]
    · exact .inl rfl
    · have hne : id' ≠ id := by
        rintro rfl
        refine h (.inl ⟨o, hcmd, ?_⟩)
        rcases hset with ⟨hop, hid, -⟩ | ⟨hop, hid, -⟩
        · exact .inl ⟨hop, hid.symm⟩
        · exact .inr ⟨hop, hid.symm⟩
      left
      change ((s.leases.insert id' held)[id]?).map _ = s.leaseTimes id
      rw [ExtTreeMap.getElem?_insert, if_neg (by simpa using hne)]
      rfl
    · rw [leaseTimes_revoked]
      split_ifs
      · exact .inr rfl
      · exact .inl rfl

/-- A revocation at the index `q` does nothing to a lease, or to its keys, that falls due after `t`. -/
def Spared (env : Env) (es : List Entry) (q id : Nat) (t : Int64) : Prop :=
  ∀ held, (Store.after env (es.take q)).leases[id]? = some held → t < held.expiresAtMillis →
    (Store.after env (es.take (q + 1))).leases[id]? = some held ∧
      ∀ ref ∈ held.keys, (Store.after env (es.take (q + 1))).valueAt ref = (Store.after env (es.take q)).valueAt ref

/-- Between `p` and `q` the lease is renewed, and it falls due after `t` from then on. -/
def RenewedPast (env : Env) (es : List Entry) (p q id : Nat) (t : Int64) : Prop :=
  ∃ n e, p ≤ n ∧ n < q ∧ es[n]? = some e ∧ e.Renews env (Store.after env (es.take n)) id ∧
    ∀ m, n < m → m ≤ q → (Store.after env (es.take m)).RunsPast id t

theorem runsPast_iff : s.RunsPast id t ↔ (s.leaseTimes id).any (t < ·.2) = true := by
  unfold Store.RunsPast Store.leaseTimes
  cases s.leases[id]? <;> simp

theorem renewedPast_of_runsPast (hpq : p ≤ q) (hq : q ≤ es.length)
    (hdue : ¬ (Store.after env (es.take p)).RunsPast id t)
    (hlate : (Store.after env (es.take q)).RunsPast id t) : RenewedPast env es p q id t := by
  induction q, hpq using Nat.le_induction with
  | base => exact absurd hlate hdue
  | succ q hpq ih =>
    obtain ⟨e, he⟩ : ∃ e, es[q]? = some e := ⟨_, List.getElem?_eq_getElem hq⟩
    by_cases hbefore : (Store.after env (es.take q)).RunsPast id t
    · obtain ⟨n, e, hpn, hnq, he, hrenews, hruns⟩ := ih (Nat.le_of_succ_le hq) hbefore
      refine ⟨n, e, hpn, Nat.lt_succ_of_lt hnq, he, hrenews, fun m hnm hmq => ?_⟩
      rcases Nat.le_succ_iff.mp hmq with hmq | rfl
      · exact hruns m hnm hmq
      · exact hlate
    · -- the deadline is new, so this entry has set it
      refine ⟨q, e, hpq, Nat.lt_succ_self q, he, by_contra fun hno => ?_, fun m hnm hmq => ?_⟩
      · rw [runsPast_iff] at hbefore hlate
        rw [after_take_succ env he] at hlate
        rcases leaseTimes_applyEntry hno with hsame | hnone
        · exact hbefore (hsame ▸ hlate)
        · simp [hnone] at hlate
      · obtain rfl : m = q + 1 := by omega
        exact hlate

/-- **A revocation spares the lease exactly if it was not renewed past `t`**, when it was due
for the sweeper. -/
theorem spared_iff (hpq : p ≤ q) (he : es[q]? = some e) (hcmd : e.cmd = some (revocation id))
    (hdue : id ∈ (Store.after env (es.take p)).dueLeases t) :
    Spared env es q id t ↔ ¬ RenewedPast env es p q id t := by
  constructor
  · rintro hspared ⟨n, -, -, hnq, -, -, hruns⟩
    obtain ⟨held, hheld, hlate⟩ := hruns q hnq le_rfl
    -- whatever its deadline, the lease is gone
    have hgone : (Store.after env (es.take (q + 1))).leaseTimes id = none := by
      rw [after_take_succ env he, Store.applyEntry, hcmd, revocation]
      simp only [applyCommand, applySingle, Operation.on, Store.applyLeaseCommand, hheld]
      exact (leaseTimes_revoked _ id id e.index held).trans (if_pos rfl)
    rw [Store.leaseTimes, (hspared held hheld hlate).1] at hgone
    cases hgone
  · intro hno held hheld hlate
    refine absurd (renewedPast_of_runsPast hpq ?_ ?_ ⟨held, hheld, hlate⟩) hno
    · exact (List.getElem?_eq_some_iff.mp he).1.le
    · rintro ⟨held', hheld', hlate'⟩
      have hdue' := (List.mem_filter.mp hdue).2
      rw [hheld'] at hdue'
      exact absurd hlate' (Int64.not_lt.mpr (by simpa using hdue'))

/-- A lease of ten milliseconds is granted, given a key, renewed by the clock `now` and revoked. -/
def renewedAt (now : Int64) : List Entry :=
  [⟨1, some (.single { Operation.on .leaseGrant ⟨"", ""⟩ [] "" with leaseTTLMillis := 10 })⟩,
    ⟨2, some (.single { Operation.on .upsert ⟨"jobs", "a"⟩ [0x31] "" with lease := 1 })⟩,
    ⟨3, some (.single { Operation.on .leaseKeepAlive ⟨"", ""⟩ [] "" with lease := 1, leaseNowMillis := now })⟩,
    ⟨4, some (revocation 1)⟩]

def renewedLate : List Entry := renewedAt 9

theorem renewedLate_swept :
    1 ∈ (Store.after jobs (renewedLate.take 2)).dueLeases 10 ∧
      (Store.after jobs (renewedLate.take 3)).leaseTimes 1 = some (10, 19) ∧
      (Store.after jobs (renewedLate.take 3)).valueAt ⟨"jobs", "a"⟩ = some [0x31] ∧
      (Store.after jobs renewedLate).leaseTimes 1 = none ∧
      (Store.after jobs renewedLate).valueAt ⟨"jobs", "a"⟩ = none := by
  decide +kernel

/-- A renewal that leaves the lease due at 12: the revocation proposed then takes nothing that
should have been spared. -/
theorem spared_renewedEarly : Spared jobs (renewedAt 2) 3 1 12 := by
  refine (spared_iff (p := 2) (by decide) rfl rfl (by decide +kernel)).mpr ?_
  rintro ⟨n, -, -, hn, -, -, hruns⟩
  exact absurd (runsPast_iff.mp (hruns 3 hn le_rfl)) (by decide +kernel)

end Raft.Easyraft
