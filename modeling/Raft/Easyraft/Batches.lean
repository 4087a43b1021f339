import Raft.Easyraft.Rollback

/-!
# Batches

A batch is to apply all of its operations or none.  It does not when its answers cannot be put
into one list: the operations have taken effect by then, and the batch returns the error of the
encoder without playing back its journal.  An operation that fails does play it back, and that
leaves no trace exactly when every key the batch changed was tidy.
-/

namespace Raft.Easyraft

variable {env : Env} {rev : Nat} {o : Operation} {s : Store} {x y : Session} {cmds : List Command}

/-- An operation on a key, as opposed to an import or one on a lease. -/
def Operation.onKey (o : Operation) : Bool :=
  match o.op with
  | .importChunk | .leaseGrant | .leaseKeepAlive | .leaseRevoke => false
  | _ => true

def Operation.step (env : Env) (x : Session) (o : Operation) : Step :=
  ⟨o.ref, o.lease, (verdict env (x.openCollection o.ref.collection).store o).toOption.map (·.1)⟩

mutual

def trace (env : Env) (rev : Nat) (x : Session) : Command → List Step
  | .single o => if o.onKey then [o.step env x] else []
  | .batch cmds => traceAll env rev x cmds

def traceAll (env : Env) (rev : Nat) (x : Session) : List Command → List Step
  | [] => []
  | cmd :: cmds => trace env rev x cmd ++
    match applyCommand env rev x cmd with
    | (_, .error _) => []
    | (y, .ok _) => traceAll env rev y cmds

end

mutual

def Command.operations : Command → List Operation
  | .single o => [o]
  | .batch cmds => operationsAll cmds

def operationsAll : List Command → List Operation
  | [] => []
  | cmd :: cmds => cmd.operations ++ operationsAll cmds

end

/-- What the checks of an operation guarantee. -/
structure Passed (env : Env) (s : Store) (o : Operation) (effect : Effect) (r : Response) : Prop where
  revision : ∀ rev, o.ifRev = some rev → (s.revAt o.ref).getD 0 = rev
  lease : o.lease = 0 ∨ s.live o.lease = true
  dropped : effect = .drop → (s.valueAt o.ref).isSome = true
  answer : r.encodes env = false → ∃ value, effect = .put value
  kept : effect = .keep ↔ o.op = .check
  written : ∀ value, effect = .put value →
    (o.op = .create ∨ o.op = .update ∨ o.op = .upsert) ∧ value = o.value ∨
      ∃ named fn current resp, env.mutations o.ref.collection = some named ∧
        named o.mutateName = some fn ∧ fn current o.mutateArgs = .ok (value, resp)

theorem verdict_ok {effect : Effect} {r : Response} (h : verdict env s o = .ok (effect, r)) :
    Passed env s o effect r := by
  unfold verdict at h
  split at h
  · cases h
  rename_i hrev
  split at h
  · cases h
  rename_i hlease
  have hrevision : ∀ rev, o.ifRev = some rev → (s.revAt o.ref).getD 0 = rev := by
    intro rev hsome
    rw [hsome] at hrev
    exact (by simpa using hrev : rev = (s.revAt o.ref).getD 0).symm
  have hlive : o.lease = 0 ∨ s.live o.lease = true := by
    by_contra hno
    push Not at hno
    exact hlease ⟨hno.1, fun hin => hno.2 (by simpa [Store.live] using hin)⟩
  cases hop : o.op <;> simp only [hop] at h
  case create | update | upsert =>
    try split_ifs at h
    cases h
    exact ⟨hrevision, hlive, by simp, fun _ => ⟨_, rfl⟩, by simp [hop],
      fun value hput => .inl ⟨by simp [hop], (Effect.put.inj hput).symm⟩⟩
  case delete =>
    split_ifs at h with hnone
    cases h
    exact ⟨hrevision, hlive, fun _ => Option.isSome_iff_ne_none.mpr (by simpa using hnone), by rintro ⟨⟩,
      by simp [hop], by simp⟩
  case mutate =>
    split at h <;> try cases h
    split at h <;> try cases h
    rename_i named hnamed
    split at h <;> try cases h
    rename_i fn hfn
    split at h <;> cases h <;> rename_i hresult
    all_goals exact ⟨hrevision, hlive, by simp, fun _ => ⟨_, rfl⟩, by simp [hop], fun value hput =>
      .inr ⟨named, fn, _, _, hnamed, hfn, Effect.put.inj hput ▸ hresult⟩⟩
  case check =>
    split_ifs at h
    cases h
    exact ⟨hrevision, hlive, by simp, by rintro ⟨⟩, by simp [hop], by simp⟩
  all_goals cases h

theorem applyToKey_fst (x : Session) (o : Operation) :
    (applyToKey env rev x o).1 = x.step rev (o.step env x) := by
  unfold applyToKey Session.step Operation.step
  dsimp only
  cases verdict env (x.openCollection o.ref.collection).store o with
  | error err | ok res => rfl

theorem applyToKey_refused {err : StoreError} (h : applyToKey env rev x o = (y, .error err)) :
    y = x.openCollection o.ref.collection := by
  unfold applyToKey at h
  cases hverdict : verdict env (x.openCollection o.ref.collection).store o with
  | error err' =>
    simp only [hverdict, Prod.mk.injEq] at h
    exact h.1.symm
  | ok effect => simp [hverdict] at h

theorem step_allowed (x : Session) (o : Operation) : (o.step env x).Allowed x.store := by
  have hopen := openCollection_spec x o.ref.collection
  unfold Step.Allowed Operation.step
  cases hverdict : verdict env (x.openCollection o.ref.collection).store o with
  | error err => trivial
  | ok res =>
    obtain ⟨effect, r⟩ := res
    obtain ⟨-, hlease, hdrop, -⟩ := verdict_ok hverdict
    rw [hopen.valueAt] at hdrop
    cases effect with
    | keep => trivial
    | put value => exact hlease
    | drop => exact hdrop rfl

theorem applySingle_of_onKey (h : o.onKey = true) (x : Session) :
    applySingle env rev x o = applyToKey env rev x o := by
  unfold Operation.onKey at h
  unfold applySingle
  cases hop : o.op <;> simp [hop] at h ⊢

theorem applySingle_cases (env : Env) (rev : Nat) (s : Store) (o : Operation) :
    (o.onKey = true ∧ applySingle env rev ⟨s, none⟩ o = applyToKey env rev ⟨s, none⟩ o) ∨
      (o.op = .importChunk ∧ applySingle env rev ⟨s, none⟩ o =
        (⟨(s.applyImport env rev o.chunk).1, none⟩, (s.applyImport env rev o.chunk).2)) ∨
      (o.onKey = false ∧ o.op ≠ .importChunk ∧ applySingle env rev ⟨s, none⟩ o =
        (⟨(s.applyLeaseCommand rev o).1, none⟩, (s.applyLeaseCommand rev o).2)) := by
  unfold Operation.onKey applySingle
  cases o.op <;> simp

theorem applySingle_of_undo (env : Env) (rev : Nat) (hx : x.undo.isSome = true) (o : Operation) :
    if o.onKey then applySingle env rev x o = applyToKey env rev x o
    else ∃ err, applySingle env rev x o = (x, .error err) := by
  unfold Operation.onKey applySingle
  cases o.op <;> simp [hx]

theorem applyCommand_batch_of_undo (env : Env) (rev : Nat) (hx : x.undo.isSome = true)
    (cmds : List Command) : applyCommand env rev x (.batch cmds) =
      ((applyAll env rev x cmds).1, (applyAll env rev x cmds).2 >>= marshal env) := by
  obtain ⟨j, hj⟩ := Option.isSome_iff_exists.mp hx
  rw [applyCommand, hj]
  obtain ⟨y, err | rs⟩ := applyAll env rev x cmds <;> rfl

theorem applyAll_cons (env : Env) (rev : Nat) (x : Session) (cmd : Command) (cmds : List Command) :
    applyAll env rev x (cmd :: cmds) =
      match applyCommand env rev x cmd with
      | (y, .error err) => (y, .error err)
      | (y, .ok r) => ((applyAll env rev y cmds).1, (applyAll env rev y cmds).2.map (r :: ·)) := by
  rw [applyAll]
  obtain ⟨y, err | r⟩ := applyCommand env rev x cmd
  · rfl
  · dsimp only
    obtain ⟨z, err | rs⟩ := applyAll env rev y cmds <;> rfl

theorem applyAll_cons_ok {cmd : Command} {rs : List Response}
    (h : applyAll env rev x (cmd :: cmds) = (y, .ok rs)) :
    ∃ z r rs', applyCommand env rev x cmd = (z, .ok r) ∧ applyAll env rev z cmds = (y, .ok rs') ∧
      rs = r :: rs' := by
  rw [applyAll_cons] at h
  rcases hcmd : applyCommand env rev x cmd with ⟨z, err | r⟩ <;> rw [hcmd] at h
  · cases h
  · dsimp only at h
    rcases hall : applyAll env rev z cmds with ⟨w, err | rs'⟩ <;> rw [hall] at h <;> cases h
    exact ⟨z, r, rs', rfl, hall, rfl⟩

theorem allowedAll_append {tr tr' : List Step} (h : AllowedAll rev x tr)
    (h' : AllowedAll rev (tr.foldl (Session.step rev) x) tr') : AllowedAll rev x (tr ++ tr') := by
  induction tr generalizing x with
  | nil => exact h'
  | cons p tr ih => exact ⟨h.1, ih h.2 h'⟩

theorem step_isSome (hx : x.undo.isSome = true) (p : Step) : (x.step rev p).undo.isSome = true := by
  obtain ⟨j, hj⟩ := Option.isSome_iff_exists.mp hx
  have hopen := openCollection_undo hj p.ref.collection
  cases hmove : p.move with
  | none => rw [step_of_move_none hmove, hopen]; rfl
  | some m => rw [step_undo hmove rev hopen]; rfl

theorem foldl_step_isSome (rev : Nat) (hx : x.undo.isSome = true) (tr : List Step) :
    (tr.foldl (Session.step rev) x).undo.isSome = true := by
  induction tr generalizing x with
  | nil => exact hx
  | cons p tr ih => exact ih (step_isSome hx p)

mutual

theorem applyCommand_trace (env : Env) (rev : Nat) {x : Session} (hx : x.undo.isSome = true) : (cmd : Command) →
    (applyCommand env rev x cmd).1 = (trace env rev x cmd).foldl (Session.step rev) x ∧
      AllowedAll rev x (trace env rev x cmd)
  | .single o => by
    have hsingle := applySingle_of_undo env rev hx o
    rw [applyCommand, trace]
    split_ifs at hsingle ⊢ with hkey
    · rw [hsingle, applyToKey_fst]
      exact ⟨rfl, step_allowed x o, trivial⟩
    · obtain ⟨err, herr⟩ := hsingle
      rw [herr]
      exact ⟨rfl, trivial⟩
  | .batch cmds => by
    rw [applyCommand_batch_of_undo env rev hx, trace]
    exact applyAll_trace env rev hx cmds

theorem applyAll_trace (env : Env) (rev : Nat) {x : Session} (hx : x.undo.isSome = true) : (cmds : List Command) →
    (applyAll env rev x cmds).1 = (traceAll env rev x cmds).foldl (Session.step rev) x ∧
      AllowedAll rev x (traceAll env rev x cmds)
  | [] => by
    exact ⟨rfl, trivial⟩
  | cmd :: cmds => by
    obtain ⟨hstate, hallowed⟩ := applyCommand_trace env rev hx cmd
    rw [applyAll_cons, traceAll]
    rcases h : applyCommand env rev x cmd with ⟨y, err | r⟩ <;> rw [h] at hstate
    · rw [List.append_nil]
      exact ⟨hstate, hallowed⟩
    · dsimp only at hstate ⊢
      have hy : y.undo.isSome = true := by
        rw [hstate]
        exact foldl_step_isSome rev hx _
      obtain ⟨hstate', hallowed'⟩ := applyAll_trace env rev hy cmds
      rw [List.foldl_append, ← hstate]
      exact ⟨hstate', allowedAll_append hallowed (by rw [← hstate]; exact hallowed')⟩

end

mutual

theorem mem_trace {env : Env} {rev : Nat} {x : Session} : (cmd : Command) → {p : Step} →
    p ∈ trace env rev x cmd → ∃ o ∈ cmd.operations, o.onKey = true ∧ ∃ x' : Session, p = o.step env x'
  | .single o, p, hp => by
    rw [trace] at hp
    rw [Command.operations]
    split_ifs at hp with hkey
    · exact ⟨o, List.mem_cons_self, hkey, x, List.mem_singleton.mp hp⟩
    · cases hp
  | .batch cmds, p, hp => by
    rw [trace] at hp
    rw [Command.operations]
    exact mem_traceAll cmds hp

theorem mem_traceAll {env : Env} {rev : Nat} {x : Session} : (cmds : List Command) → {p : Step} →
    p ∈ traceAll env rev x cmds → ∃ o ∈ operationsAll cmds, o.onKey = true ∧ ∃ x' : Session, p = o.step env x'
  | [], p, hp => by
    cases hp
  | cmd :: cmds, p, hp => by
    rw [traceAll, List.mem_append] at hp
    rcases hp with hp | hp
    · obtain ⟨o, ho, hkey, hstep⟩ := mem_trace cmd hp
      exact ⟨o, List.mem_append_left _ ho, hkey, hstep⟩
    · rcases hcmd : applyCommand env rev x cmd with ⟨y, err | r⟩ <;> rw [hcmd] at hp
      · cases hp
      · obtain ⟨o, ho, hkey, hstep⟩ := mem_traceAll cmds hp
        exact ⟨o, List.mem_append_right _ ho, hkey, hstep⟩

end

theorem applyCommand_isSome (env : Env) (rev : Nat) (hx : x.undo.isSome = true) (cmd : Command) :
    (applyCommand env rev x cmd).1.undo.isSome = true := by
  rw [(applyCommand_trace env rev hx cmd).1]
  exact foldl_step_isSome rev hx _

theorem applyToKey_alone (env : Env) (rev : Nat) (x : Session) (o : Operation) :
    applyToKey env rev ⟨x.store, none⟩ o =
      (⟨(applyToKey env rev x o).1.store, none⟩, (applyToKey env rev x o).2) := by
  have hopen : Session.openCollection ⟨x.store, none⟩ o.ref.collection =
      ⟨(x.openCollection o.ref.collection).store, none⟩ := by
    unfold Session.openCollection
    simp
  unfold applyToKey
  dsimp only
  rw [hopen]
  cases verdict env (x.openCollection o.ref.collection).store o with
  | error err => rfl
  | ok res =>
    obtain ⟨effect, r⟩ := res
    cases effect <;> rfl

mutual

theorem applyCommand_congr (env : Env) (rev : Nat) {x x' : Session} (hstore : x.store = x'.store) (hx : x.undo.isSome = true)
    (hx' : x'.undo.isSome = true) : (cmd : Command) →
    (applyCommand env rev x cmd).1.store = (applyCommand env rev x' cmd).1.store ∧
      (applyCommand env rev x cmd).2 = (applyCommand env rev x' cmd).2
  | .single o => by
    have hsingle := applySingle_of_undo env rev hx o
    have hsingle' := applySingle_of_undo env rev hx' o
    rw [applyCommand, applyCommand]
    split_ifs at hsingle hsingle' with hkey
    · have hsame := applyToKey_alone env rev x o
      rw [hstore, applyToKey_alone env rev x' o] at hsame
      rw [hsingle, hsingle']
      exact ⟨(congrArg (·.1.store) hsame).symm, (congrArg (·.2) hsame).symm⟩
    · unfold Operation.onKey at hkey
      unfold applySingle
      cases hop : o.op <;> simp only [hop] at hkey ⊢ <;> first | exact absurd trivial hkey | simp [hx, hx', hstore]
  | .batch cmds => by
    obtain ⟨hsame, hres⟩ := applyAll_congr env rev hstore hx hx' cmds
    rw [applyCommand_batch_of_undo env rev hx, applyCommand_batch_of_undo env rev hx', hres]
    exact ⟨hsame, rfl⟩

theorem applyAll_congr (env : Env) (rev : Nat) {x x' : Session} (hstore : x.store = x'.store) (hx : x.undo.isSome = true)
    (hx' : x'.undo.isSome = true) : (cmds : List Command) →
    (applyAll env rev x cmds).1.store = (applyAll env rev x' cmds).1.store ∧
      (applyAll env rev x cmds).2 = (applyAll env rev x' cmds).2
  | [] => by
    exact ⟨hstore, rfl⟩
  | cmd :: cmds => by
    obtain ⟨hsame, hres⟩ := applyCommand_congr env rev hstore hx hx' cmd
    have hsome := applyCommand_isSome env rev hx cmd
    have hsome' := applyCommand_isSome env rev hx' cmd
    rw [applyAll_cons, applyAll_cons]
    generalize applyCommand env rev x cmd = a at hsame hres hsome ⊢
    generalize applyCommand env rev x' cmd = b at hsame hres hsome' ⊢
    obtain ⟨y, res⟩ := a
    obtain ⟨y', err | r⟩ := b <;> subst hres
    · exact ⟨hsame, rfl⟩
    · obtain ⟨hrest, hresults⟩ := applyAll_congr env rev hsame hsome hsome' cmds
      exact ⟨hrest, congrArg (Except.map _) hresults⟩

end

def Session.start (s : Store) : Session := ⟨s, some ⟨[], [], s.revision⟩⟩

theorem Session.start_undo (s : Store) : (Session.start s).undo.isSome = true := rfl

def Session.rolledBack (s : Store) (y : Session) : Store :=
  let j := y.undo.getD ⟨[], [], s.revision⟩
  let f := j.restoreRevision (j.rollback y.store)
  { f with pendingEvents := f.pendingEvents.take s.pendingEvents.length }

theorem applyCommand_batch_error {err : StoreError}
    (h : applyAll env rev (.start s) cmds = (y, .error err)) :
    applyCommand env rev ⟨s, none⟩ (.batch cmds) = (⟨y.rolledBack s, none⟩, .error err) := by
  unfold applyCommand
  rw [show applyAll env rev ⟨s, _⟩ cmds = _ from h]
  rfl

theorem applyCommand_batch_ok {rs : List Response}
    (h : applyAll env rev (.start s) cmds = (y, .ok rs)) :
    applyCommand env rev ⟨s, none⟩ (.batch cmds) = (⟨y.store, none⟩, marshal env rs) := by
  unfold applyCommand
  rw [show applyAll env rev ⟨s, _⟩ cmds = _ from h]

mutual

theorem applyCommand_alone {x y : Session} {r : Response} (hx : x.undo.isSome = true) :
    (cmd : Command) → applyCommand env rev x cmd = (y, .ok r) →
      applyCommand env rev ⟨x.store, none⟩ cmd = (⟨y.store, none⟩, .ok r)
  | .single o, h => by
    have hsingle := applySingle_of_undo env rev hx o
    rw [applyCommand] at h ⊢
    split_ifs at hsingle with hkey
    · rw [applySingle_of_onKey hkey, applyToKey_alone, ← hsingle, h]
    · obtain ⟨err, herr⟩ := hsingle
      rw [herr] at h
      cases h
  | .batch cmds, h => by
    have hstart : x.store = (Session.start x.store).store := rfl
    obtain ⟨hsame, hres⟩ := applyAll_congr env rev hstart hx rfl cmds
    rw [applyCommand_batch_of_undo env rev hx, Prod.mk.injEq] at h
    obtain ⟨rfl, hmarshal⟩ := h
    rcases hall : applyAll env rev (Session.start x.store) cmds with ⟨z, err | rs⟩ <;>
      rw [hall] at hsame hres <;> rw [hres] at hmarshal
    · cases hmarshal
    · rw [applyCommand_batch_ok hall, hsame, ← hmarshal]
      rfl

theorem applyAll_alone {x y : Session} {rs : List Response} (hx : x.undo.isSome = true) :
    (cmds : List Command) → applyAll env rev x cmds = (y, .ok rs) →
      applyAll env rev ⟨x.store, none⟩ cmds = (⟨y.store, none⟩, .ok rs)
  | [], h => by
    cases h
    rfl
  | cmd :: cmds, h => by
    obtain ⟨z, r, rs', hcmd, hrest, rfl⟩ := applyAll_cons_ok h
    have hsome := applyCommand_isSome env rev hx cmd
    rw [hcmd] at hsome
    rw [applyAll_cons, applyCommand_alone hx cmd hcmd]
    dsimp only
    rw [applyAll_alone hsome cmds hrest]
    rfl

end

theorem foldl_step_pendingEvents (rev : Nat) (x : Session) (tr : List Step) :
    (tr.foldl (Session.step rev) x).store.pendingEvents =
      x.store.pendingEvents ++ tr.flatMap Step.events := by
  induction tr generalizing x with
  | nil => exact (List.append_nil _).symm
  | cons p tr ih => rw [List.foldl_cons, ih, step_pendingEvents, List.append_assoc, List.flatMap_cons]

theorem events_of_not_encodes (hx : x.undo.isSome = true) {cmd : Command} {r : Response}
    (h : applyCommand env rev x cmd = (y, .ok r)) (hr : r.encodes env = false) :
    (trace env rev x cmd).flatMap Step.events ≠ [] := by
  cases cmd with
  | single o =>
    have hsingle := applySingle_of_undo env rev hx o
    rw [applyCommand] at h
    rw [trace]
    split_ifs at hsingle ⊢ with hkey
    · rw [hsingle, applyToKey] at h
      rcases hverdict : verdict env (x.openCollection o.ref.collection).store o with
        err | ⟨effect, resp⟩ <;> rw [hverdict] at h <;> cases h
      obtain ⟨value, rfl⟩ := (verdict_ok hverdict).answer hr
      simp [Step.events, Operation.step, hverdict, Except.toOption]
    · obtain ⟨err, herr⟩ := hsingle
      rw [herr] at h
      cases h
  | batch cmds =>
    -- a batch inside the batch has been encoded already
    rw [applyCommand_batch_of_undo env rev hx, Prod.mk.injEq] at h
    obtain ⟨-, hmarshal⟩ := h
    cases hall : (applyAll env rev x cmds).2 <;> rw [hall] at hmarshal
    · cases hmarshal
    · dsimp only [marshal, bind, Except.bind] at hmarshal
      split_ifs at hmarshal
      cases hmarshal
      cases hr

theorem eventsAll_of_not_encodes (hx : x.undo.isSome = true) {rs : List Response}
    (h : applyAll env rev x cmds = (y, .ok rs)) (hrs : rs.all (·.encodes env) = false) :
    (traceAll env rev x cmds).flatMap Step.events ≠ [] := by
  induction cmds generalizing x rs with
  | nil =>
    cases h
    cases hrs
  | cons cmd cmds ih =>
    obtain ⟨z, r, rs', hcmd, hrest, rfl⟩ := applyAll_cons_ok h
    have hsome := applyCommand_isSome env rev hx cmd
    rw [hcmd] at hsome
    rw [traceAll, List.flatMap_append, hcmd]
    rw [List.all_cons, Bool.and_eq_false_iff] at hrs
    rcases hrs with hr | hrs
    · exact List.append_ne_nil_of_left_ne_nil (events_of_not_encodes hx hcmd hr) _
    · exact List.append_ne_nil_of_right_ne_nil _ (ih hsome hrest hrs)

/-- **A batch is atomic**: it fails without a trace, or does what its commands do one by one. -/
def Atomic (env : Env) (rev : Nat) (s : Store) (cmds : List Command) : Prop :=
  match applyCommand env rev ⟨s, none⟩ (.batch cmds) with
  | (y, .error _) => y.store = s
  | (y, .ok r) => ∃ rs, applyAll env rev ⟨s, none⟩ cmds = (y, .ok rs) ∧ r = .list rs

/-- When all commands succeed, their answers can be encoded; when one fails, the steps can be taken
back. -/
def KeepsWhole (env : Env) (rev : Nat) (s : Store) (cmds : List Command) : Prop :=
  match (applyAll env rev (.start s) cmds).2 with
  | .ok rs => rs.all (·.encodes env) = true
  | .error _ => s.TidyFor (traceAll env rev (.start s) cmds)

/-- **The store after a failed batch**: its steps are undone, and the collections it created
removed. -/
theorem rolledBack_spec (env : Env) (rev : Nat) (s : Store) (cmds : List Command) :
    ∃ b cs, Restored s b (traceAll env rev (.start s) cmds) cs ∧
      (applyAll env rev (.start s) cmds).1.rolledBack s = { cs.foldl Journal.removeCreated b with
        revision := s.revision
        pendingEvents := b.pendingEvents.take s.pendingEvents.length } ∧
      ∀ r, ∀ l ∈ movesAt (traceAll env rev (.start s) cmds) r, l = 0 ∨ s.live l = true := by
  obtain ⟨hstate, hallowed⟩ := applyAll_trace env rev (Session.start_undo s) cmds
  obtain ⟨es, cs, hj, hback⟩ := backFrom_spec (traceAll env rev (.start s) cmds) rfl hallowed
  rw [← hstate] at hj hback
  refine ⟨_, cs, hback, ?_, fun r l hl => live_of_movesAt hallowed hl⟩
  unfold Session.rolledBack
  rw [hj]
  -- the removal of collections announces nothing
  have hevents := congrArg Store.pendingEvents (removeCreated_foldl cs
    (es.foldr (fun e s => Journal.undoEntry s e) (applyAll env rev (.start s) cmds).1.store)).eq
  rw [← hevents]
  rfl

theorem foldl_step_beside {tr : List Step} (h : AllowedAll rev x tr) :
    (tr.foldl (Session.step rev) x).store.beside = x.store.beside := by
  induction tr generalizing x with
  | nil => rfl
  | cons p tr ih => exact (ih h.2).trans (step_beside h.1)

theorem rolledBack_beside (env : Env) (rev : Nat) (s : Store) (cmds : List Command) :
    ((applyAll env rev (.start s) cmds).1.rolledBack s).beside = s.beside := by
  obtain ⟨b, cs, hback, heq, -⟩ := rolledBack_spec env rev s cmds
  rw [heq, (removeCreated_foldl cs b).eq]
  exact Prod.ext (funext hback.leaseTimes) hback.importing

theorem rolledBack_eq_iff (env : Env) (rev : Nat) (s : Store) (cmds : List Command) :
    (applyAll env rev (.start s) cmds).1.rolledBack s = s ↔
      s.TidyFor (traceAll env rev (.start s) cmds) := by
  obtain ⟨b, cs, hback, heq, hlive⟩ := rolledBack_spec env rev s cmds
  rw [heq]
  exact hback.untouched_iff hlive

/-- **A batch is atomic exactly when** its answers can be encoded or its steps be taken back. -/
theorem atomic_iff (env : Env) (rev : Nat) (s : Store) (cmds : List Command) :
    Atomic env rev s cmds ↔ KeepsWhole env rev s cmds := by
  have htrace := (applyAll_trace env rev (Session.start_undo s) cmds).1
  have hrollback := rolledBack_eq_iff env rev s cmds
  unfold Atomic KeepsWhole
  rcases hall : applyAll env rev (.start s) cmds with ⟨y, err | rs⟩ <;> rw [hall] at htrace hrollback
  · rw [applyCommand_batch_error hall]
    exact hrollback
  · rw [applyCommand_batch_ok hall]
    dsimp only [marshal]
    split_ifs with hencodes
    · exact iff_of_true ⟨rs, applyAll_alone rfl cmds hall, rfl⟩ hencodes
    · -- a mutation has announced its change by the time its answer is refused
      refine iff_of_false (fun heq => ?_) hencodes
      have hevents := foldl_step_pendingEvents rev (Session.start s)
        (traceAll env rev (Session.start s) cmds)
      rw [← htrace, heq] at hevents
      exact eventsAll_of_not_encodes rfl hall (by simpa using hencodes)
        (List.self_eq_append_right.mp hevents)

def failure : Except StoreError Response → Option StoreError
  | .error err => some err
  | .ok _ => none

/-- A mutation that counts a job as run and answers `done`, which is not JSON. -/
def jobs : Env where
  mutations := fun collection => if collection = "jobs" then
    some fun name => if name = "run" then some fun _ _ => .ok ([0x32], some [0x64, 0x6f, 0x6e, 0x65])
      else none
    else none
  decodeSnapshot := fun _ => .error "unexpected end of JSON input"
  valid := fun b => b == [0x31] || b == [0x32]

def Operation.on (op : OpType) (ref : KeyRef) (value : Value) (mutateName : String) : Operation :=
  ⟨op, ref, value, mutateName, [], none, 0, 0, 0, none⟩

def created : Store :=
  (applyCommand jobs 1 ⟨.empty, none⟩ (.single (.on .create ⟨"jobs", "a"⟩ [0x31] ""))).1.store

/-- The batch fails, and the job has been run. -/
theorem batch_fails_with_effect :
    failure (applyCommand jobs 2 ⟨created, none⟩ (.batch [.single (.on .mutate ⟨"jobs", "a"⟩ [] "run")])).2 =
        some .encode ∧
      created.valueAt ⟨"jobs", "a"⟩ = some [0x31] ∧
      (applyCommand jobs 2 ⟨created, none⟩
        (.batch [.single (.on .mutate ⟨"jobs", "a"⟩ [] "run")])).1.store.valueAt ⟨"jobs", "a"⟩ = some [0x32] := by
  decide +kernel

end Raft.Easyraft
