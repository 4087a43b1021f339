import Raft.Easyraft.Replicas

/-!
# The running totals

The store counts its keys and the bytes of its state as it goes: every write, every delete and every
step that is taken back adjusts the two counters, and only a state that comes from outside is measured
as a whole.  They are right in every state a store comes to, whatever it is given to apply or to
restore.
-/

namespace Raft.Easyraft

variable {env : Env} {s : Store} {x : Session}

namespace Store.Counted

theorem step (h : x.store.Counted) (rev : Nat) {p : Step} (hp : p.Allowed x.store) :
    (x.step rev p).store.Counted := by
  have hopened := h.opened p.ref.collection
  cases hmove : p.move with
  | none =>
    rw [step_of_move_none hmove]
    exact hopened
  | some m =>
    obtain ⟨effect, -, hdo⟩ := step_spec rev hmove hp
    have hin := ((openCollection_spec x p.ref.collection).mem_collections _).mpr (.inl rfl)
    exact counted_of_valueAt hdo.valueAt hdo.mem_collections hin hdo.stateBytes hdo.keyCount hopened

theorem steps (h : x.store.Counted) (rev : Nat) {tr : List Step} (hallowed : AllowedAll rev x tr) :
    (tr.foldl (Session.step rev) x).store.Counted := by
  induction tr generalizing x with
  | nil => exact h
  | cons p tr ih => exact ih (h.step rev hallowed.1) hallowed.2

theorem leaseCommand (h : s.Counted) (rev : Nat) (o : Operation) :
    (s.applyLeaseCommand rev o).1.Counted := by
  rcases applyLeaseCommand_cases rev s o with ⟨res, heq⟩ | ⟨id, held, res, -, heq⟩ | ⟨held, -, heq⟩ <;>
    rw [heq]
  · exact h
  · exact h
  · exact (deleteLeaseKeys_cleared s o.lease held).counted h

end Store.Counted

theorem counted_recount (s : Store) : s.recount.Counted := by
  rw [recount_eq]
  exact ⟨rfl, rfl⟩

/-- **An entry keeps the counters right.** -/
theorem counted_applyEntry (env : Env) (h : s.Counted) (e : Entry) : (s.applyEntry env e).1.Counted := by
  refine applyEntry_rule (P := fun s' _ => s'.Counted) env s e h fun s' hout => ?_
  have h₀ : Store.Counted { s with pendingEvents := [] } := h
  suffices hcounted : s'.Counted from hcounted
  cases hout with
  | steps hx hallowed => exact Store.Counted.steps (hx ▸ h₀) e.index hallowed
  | rolledBack cmds => exact h₀.rolledBack env e.index cmds
  | staged => exact h₀
  | replaced => exact counted_recount _
  | lease => exact h₀.leaseCommand e.index _

/-! ## Runs -/

/-- What a store is given: a committed entry, or a snapshot to take the place of its state. -/
inductive StoreEvent
  | entry (e : Entry)
  | snapshot (ts : List (Token Leaf))

/-- A snapshot that cannot be read leaves the store as it is. -/
def Store.take (env : Env) (codec : Codec) (s : Store) : StoreEvent → Store
  | .entry e => (s.applyEntry env e).1
  | .snapshot ts =>
    match s.restore codec ts with
    | .error _ => s
    | .ok s => s

theorem counted_take (env : Env) (codec : Codec) (h : s.Counted) (ev : StoreEvent) :
    (s.take env codec ev).Counted := by
  cases ev with
  | entry e => exact counted_applyEntry env h e
  | snapshot ts =>
    simp only [Store.take, Store.restore]
    cases decodeSnapshot codec ts with
    | error reason => exact h
    | ok decoded => exact counted_recount _

/-- **The running totals are exact** in every state a store comes to. -/
theorem running_totals (env : Env) (codec : Codec) (evs : List StoreEvent) :
    (evs.foldl (Store.take env codec) .empty).keyCount =
        (evs.foldl (Store.take env codec) .empty).collections.total (fun _ _ _ => 1) ∧
      (evs.foldl (Store.take env codec) .empty).stateBytes =
        (evs.foldl (Store.take env codec) .empty).collections.total
          fun _ key value => key.utf8ByteSize + value.length := by
  suffices hcounted : ∀ s : Store, s.Counted → (evs.foldl (Store.take env codec) s).Counted from
    (hcounted .empty ⟨rfl, rfl⟩).symm
  induction evs with
  | nil => exact fun _ h => h
  | cons ev evs ih => exact fun s h => ih _ (counted_take env codec h ev)

end Raft.Easyraft
