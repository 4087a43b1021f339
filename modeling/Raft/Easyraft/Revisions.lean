import Raft.Easyraft.Batches

/-!
# Revisions

The revision of a key is the index of the entry that wrote it.  A write gives its key a
revision above all before, and a key that was written or removed since it was read no longer
has the revision that was seen.

An import breaks both.  It brings the revisions of another log, or of an earlier point of
this one: the next write may have a revision below the imported ones, and a key that was
replaced may carry the very revision a reader saw before.
-/

namespace Raft.Easyraft

open Std

/-- A key is there exactly when it has a revision. -/
def Store.TidyRevs (s : Store) : Prop := ∀ r, (s.valueAt r).isSome = true ↔ (s.revAt r).isSome = true

/-- A key as an entry at `rev` leaves it. -/
def Store.Written (rev : Nat) (s : Store) (r : KeyRef) : Prop :=
  (s.valueAt r).isSome = true ∧ s.revAt r = some rev ∨ s.valueAt r = none ∧ s.revAt r = none

def Store.SameAt (s s' : Store) (r : KeyRef) : Prop := s'.valueAt r = s.valueAt r ∧ s'.revAt r = s.revAt r

variable {x y : Session} {rev : Nat} {s : Store} {e : Entry} {env : Env}

theorem step_at (rev : Nat) {p : Step} (hp : p.Allowed x.store) (r : KeyRef) :
    if p.ref = r ∧ p.move ≠ none then (x.step rev p).store.Written rev r
    else x.store.SameAt (x.step rev p).store r := by
  have hopen := openCollection_spec x p.ref.collection
  cases hmove : p.move with
  | none =>
    rw [if_neg (by simp), step_of_move_none hmove]
    exact ⟨hopen.valueAt r, hopen.revAt r⟩
  | some m =>
    obtain ⟨effect, heffect, hdo⟩ := step_spec rev hmove hp
    split_ifs with hr
    · obtain ⟨rfl, -⟩ := hr
      unfold Store.Written
      rw [hdo.valueAt, hdo.revAt, if_pos rfl, if_pos rfl]
      cases effect with
      | keep => simp [Step.move, heffect] at hmove
      | put value => exact .inl ⟨rfl, rfl⟩
      | drop => exact .inr ⟨rfl, rfl⟩
    · have hne : p.ref ≠ r := fun heq => hr ⟨heq, by simp⟩
      exact ⟨by rw [hdo.valueAt, if_neg hne, hopen.valueAt], by rw [hdo.revAt, if_neg hne, hopen.revAt]⟩

theorem Store.SameAt.written {s' : Store} {r : KeyRef} (h : s.SameAt s' r) (hw : s.Written rev r) :
    s'.Written rev r := by
  unfold Store.Written
  rw [h.1, h.2]
  exact hw

theorem movesAt_cons_eq_nil_iff (p : Step) (tr : List Step) (r : KeyRef) :
    movesAt (p :: tr) r = [] ↔ ¬ (p.ref = r ∧ p.move ≠ none) ∧ movesAt tr r = [] := by
  by_cases hr : p.ref = r
  · subst hr
    cases hmove : p.move with
    | none => simp [movesAt_cons_of_none hmove]
    | some m => simp [movesAt_cons_self hmove]
  · simp [movesAt_cons_of_ne hr, hr]

theorem foldl_step_at (rev : Nat) {tr : List Step} (h : AllowedAll rev x tr) (r : KeyRef) :
    if movesAt tr r = [] then x.store.SameAt (tr.foldl (Session.step rev) x).store r
    else (tr.foldl (Session.step rev) x).store.Written rev r := by
  induction tr generalizing x with
  | nil => exact ⟨rfl, rfl⟩
  | cons p tr ih =>
    have hstep := step_at rev h.1 r
    have hrest := ih h.2
    simp only [movesAt_cons_eq_nil_iff]
    by_cases hp : p.ref = r ∧ p.move ≠ none
    · rw [if_pos hp] at hstep
      rw [if_neg fun hno => hno.1 hp]
      split_ifs at hrest
      · exact hrest.written hstep
      · exact hrest
    · rw [if_neg hp] at hstep
      simp only [hp, not_false_eq_true, true_and]
      split_ifs at hrest ⊢
      · exact ⟨hrest.1.trans hstep.1, hrest.2.trans hstep.2⟩
      · exact hrest

theorem mem_events_iff (tr : List Step) (r : KeyRef) :
    (∃ ev ∈ tr.flatMap Step.events, ev.ref = r) ↔ movesAt tr r ≠ [] := by
  induction tr with
  | nil => simp [movesAt]
  | cons p tr ih =>
    have hp : (∃ ev ∈ p.events, ev.ref = r) ↔ p.ref = r ∧ p.move ≠ none := by
      obtain ⟨ref, lease, effect⟩ := p
      rcases effect with _ | _ | _ | _ <;> simp [Step.events, Step.move]
    rw [ne_eq, movesAt_cons_eq_nil_iff, not_and_or, not_not, ← hp, ← ne_eq, ← ih, List.flatMap_cons]
    simp only [List.mem_append, or_and_right, exists_or]

theorem rolledBack_sameAt (env : Env) (rev : Nat) (htidy : s.TidyRevs) (cmds : List Command)
    (r : KeyRef) : s.SameAt ((applyAll env rev (.start s) cmds).1.rolledBack s) r := by
  obtain ⟨b, cs, hback, heq, -⟩ := rolledBack_spec env rev s cmds
  have hremoved := removeCreated_foldl cs b
  have hvalue : (s.valueAt r).isSome = true ↔ (s.revAt r).isSome = true := htidy r
  have hno : r.collection ∈ cs → s.valueAt r = none := fun hc =>
    valueAt_eq_none ((hback.created _).mp hc).1
  rw [heq]
  change s.SameAt (cs.foldl Journal.removeCreated b) r
  refine ⟨?_, ?_⟩
  · rw [hremoved.valueAt, hback.valueAt]
    split_ifs with hc
    · exact (hno hc).symm
    · rfl
  · rw [hremoved.revAt, hback.revAt]
    cases hv : s.valueAt r <;> cases hr : s.revAt r <;> simp_all

theorem dropKey_at (htidy : s.TidyRevs) (ref r : KeyRef) :
    ((s.dropKey ref).valueAt r, (s.dropKey ref).revAt r) =
      if ref = r then (none, none) else (s.valueAt r, s.revAt r) := by
  cases hv : s.valueAt ref with
  | none =>
    have hr : s.revAt ref = none := by simpa [hv] using htidy ref
    rw [Store.dropKey_of_none hv]
    split_ifs with heq
    · rw [← heq, hv, hr]
    · rfl
  | some value =>
    have hspec := @Store.dropKey_spec s ref (by rw [hv]; rfl)
    rw [hspec.valueAt, hspec.revAt]
    split_ifs <;> rfl

theorem deleteLeaseKeys_at (htidy : s.TidyRevs) (id : Nat) (held : LeaseState) :
    ∃ evs, (s.deleteLeaseKeys id held).pendingEvents = s.pendingEvents ++ evs ∧
      ∀ r, ((s.deleteLeaseKeys id held).valueAt r, (s.deleteLeaseKeys id held).revAt r) =
        if ∃ ev ∈ evs, ev.ref = r then (none, none) else (s.valueAt r, s.revAt r) := by
  unfold Store.deleteLeaseKeys
  generalize held.keys.toList = refs
  induction refs generalizing s with
  | nil => exact ⟨[], by simp, by simp⟩
  | cons ref refs ih =>
    rw [List.foldl_cons]
    split_ifs with hown
    · set s₁ := ({ s.dropKey ref with keyLeases := (s.dropKey ref).keyLeases.erase ref } : Store).emit
        ⟨ref, [], true⟩ with hs₁
      have hdrop : ∀ r, (s₁.valueAt r, s₁.revAt r) = _ := dropKey_at htidy ref
      have htidy₁ : s₁.TidyRevs := by
        intro r
        have hat := hdrop r
        split_ifs at hat <;> obtain ⟨hvalue, hrev⟩ := Prod.mk.inj hat <;> rw [hvalue, hrev]
        · rfl
        · exact htidy r
      obtain ⟨evs, hev, hat⟩ := ih htidy₁
      refine ⟨⟨ref, [], true⟩ :: evs, ?_, fun r => ?_⟩
      · rw [hev, hs₁, Store.emit, dropKey_pendingEvents]
        simp
      · rw [hat r]
        by_cases hlater : ∃ ev ∈ evs, ev.ref = r
        · rw [if_pos hlater, if_pos (by simp [hlater])]
        · rw [if_neg hlater, hdrop r]
          exact if_congr (by simp [hlater]) rfl rfl
    · exact ih htidy

/-- The backup a chunk completes, if it is the last of an import in progress and can be read. -/
def Store.completes (env : Env) (s : Store) (chunk : ImportChunk) : Option SnapshotContents :=
  let staged := if chunk.seq = 0 then some ⟨chunk.token, 0, []⟩ else s.importing
  if chunk.abort then none
  else staged.bind fun staged =>
    if staged.token = chunk.token ∧ chunk.seq = staged.seq ∧ chunk.final = true then
      (env.decodeSnapshot (staged.buf ++ chunk.data)).toOption
    else none

def Store.imports (env : Env) (s : Store) (e : Entry) : Option SnapshotContents :=
  match e.cmd with
  | some (.single o) => if o.op = .importChunk then o.chunk.bind (s.completes env) else none
  | _ => none

/-- What has arrived of the import of which a chunk is the next piece. -/
def Store.awaits (s : Store) (chunk : ImportChunk) : Option (List UInt8) :=
  if chunk.seq = 0 then some []
  else s.importing.bind fun staged =>
    if staged.token = chunk.token ∧ chunk.seq = staged.seq then some staged.buf else none

theorem applyImport_eq (env : Env) (rev : Nat) (s : Store) (chunk : ImportChunk) :
    ∃ err, s.applyImport env rev (some chunk) =
      if chunk.abort then ({ s with importing := none }, .ok .none)
      else match s.awaits chunk with
        | none => (s, .error err)
        | some buf =>
          if chunk.final then
            match env.decodeSnapshot (buf ++ chunk.data) with
            | .error reason =>
              ({ s with importing := none }, .error (.importFailed chunk.token reason))
            | .ok decoded => (s.replaceBy rev decoded, .ok .none)
          else ({ s with importing := some ⟨chunk.token, chunk.seq + 1, buf ++ chunk.data⟩ },
            .ok .none) := by
  unfold Store.applyImport Store.awaits
  by_cases habort : chunk.abort = true
  · exact ⟨.noChunk, by simp [habort]⟩
  · by_cases hseq : chunk.seq = 0
    · -- the first piece is always the next one
      refine ⟨.noChunk, ?_⟩
      cases hfinal : chunk.final <;> simp [habort, hseq, hfinal]
      rfl
    · cases hstaged : s.importing with
      | none => exact ⟨.noSuchImport chunk.token, by simp [habort, hseq, hstaged]⟩
      | some staged =>
        by_cases htoken : staged.token = chunk.token
        · by_cases hnext : chunk.seq = staged.seq
          · refine ⟨.noChunk, ?_⟩
            cases hfinal : chunk.final <;> simp [habort, hstaged, htoken, ← hnext, hseq, hfinal]
            rfl
          · exact ⟨.chunkOutOfOrder chunk.token chunk.seq staged.seq,
              by simp [habort, hseq, hstaged, htoken, hnext]⟩
        · exact ⟨.noSuchImport chunk.token, by simp [habort, hseq, hstaged, htoken]⟩

theorem completes_eq (env : Env) (s : Store) (chunk : ImportChunk) : s.completes env chunk =
    if chunk.abort then none
    else (s.awaits chunk).bind fun buf =>
      if chunk.final then (env.decodeSnapshot (buf ++ chunk.data)).toOption else none := by
  unfold Store.completes Store.awaits
  split_ifs <;> cases s.importing <;> simp_all
  grind

/-- An import in progress leaves the state alone, and a completed one replaces it. -/
theorem applyImport_spec (env : Env) (rev : Nat) (s : Store) (chunk : Option ImportChunk) :
    match chunk.bind (s.completes env) with
    | none => (s.applyImport env rev chunk).1 =
        { s with importing := (s.applyImport env rev chunk).1.importing }
    | some decoded => (∃ data, env.decodeSnapshot data = .ok decoded) ∧
        (s.applyImport env rev chunk).1 = s.replaceBy rev decoded := by
  cases chunk with
  | none => rfl
  | some chunk =>
    obtain ⟨err, heq⟩ := applyImport_eq env rev s chunk
    rw [heq, Option.bind_some, completes_eq]
    split_ifs with habort hfinal
    · rfl
    · cases s.awaits chunk with
      | none => rfl
      | some buf =>
        dsimp only [Option.bind_some]
        cases hdecode : env.decodeSnapshot (buf ++ chunk.data) with
        | error reason => rfl
        | ok decoded => exact ⟨⟨_, hdecode⟩, rfl⟩
    · cases s.awaits chunk <;> rfl

/-- What an entry makes of a store in which nothing is announced yet. -/
inductive Outcome (env : Env) (s : Store) (e : Entry) : Store → Prop
  | steps {x : Session} {tr : List Step} (hx : x.store = s) (hallowed : AllowedAll e.index x tr)
      (hops : ∀ p ∈ tr, ∃ cmd, e.cmd = some cmd ∧ ∃ o ∈ cmd.operations, o.onKey = true ∧
        ∃ x' : Session, p = o.step env x') : Outcome env s e (tr.foldl (Session.step e.index) x).store
  | rolledBack (cmds : List Command) :
      Outcome env s e ((applyAll env e.index (.start s) cmds).1.rolledBack s)
  | staged (importing : Option ImportState) (himports : s.imports env e = none) :
      Outcome env s e { s with importing := importing }
  | replaced {data : List UInt8} {d : SnapshotContents} (hd : env.decodeSnapshot data = .ok d)
      (himports : s.imports env e = some d) : Outcome env s e (s.replaceBy e.index d)
  | lease {o : Operation} (hcmd : e.cmd = some (.single o)) (himports : s.imports env e = none) :
      Outcome env s e (s.applyLeaseCommand e.index o).1

theorem applyCommand_outcome (env : Env) (s : Store) {cmd : Command} (hcmd : e.cmd = some cmd) :
    Outcome env s e (applyCommand env e.index ⟨s, none⟩ cmd).1.store := by
  cases cmd with
  | single o =>
    have himports : s.imports env e = if o.op = .importChunk then o.chunk.bind (s.completes env) else none := by
      rw [Store.imports, hcmd]
    rw [applyCommand]
    rcases applySingle_cases env e.index s o with ⟨hkey, heq⟩ | ⟨hop, heq⟩ | ⟨-, hop, heq⟩ <;> rw [heq]
    · rw [applyToKey_fst]
      have hallowed : AllowedAll e.index ⟨s, none⟩ [o.step env ⟨s, none⟩] := ⟨step_allowed _ o, trivial⟩
      exact @Outcome.steps env s e _ _ rfl hallowed fun p hp =>
        ⟨_, hcmd, o, List.mem_cons_self, hkey, ⟨s, none⟩, List.mem_singleton.mp hp⟩
    · have hspec := applyImport_spec env e.index s o.chunk
      rw [if_pos hop] at himports
      rw [← himports] at hspec
      cases hdone : s.imports env e with
      | none =>
        rw [hdone] at hspec
        rw [hspec]
        exact .staged _ hdone
      | some d =>
        rw [hdone] at hspec
        obtain ⟨⟨data, hd⟩, hreplaced⟩ := hspec
        rw [hreplaced]
        exact .replaced hd hdone
    · exact .lease hcmd (himports.trans (if_neg hop))
  | batch cmds =>
    rcases hall : applyAll env e.index (.start s) cmds with ⟨y, err | rs⟩
    · have hback : Outcome env s e _ := .rolledBack cmds
      rw [hall] at hback
      rw [applyCommand_batch_error hall]
      exact hback
    · obtain ⟨hstate, hallowed⟩ := applyAll_trace env e.index (Session.start_undo s) cmds
      rw [hall] at hstate
      rw [applyCommand_batch_ok hall]
      dsimp only at hstate ⊢
      rw [hstate]
      exact .steps (x := .start s) rfl hallowed fun p hp => ⟨_, hcmd, mem_traceAll cmds hp⟩

theorem applyEntry_rule {P : Store → List ChangeEvent → Prop} (env : Env) (s : Store) (e : Entry)
    (hsame : P s []) (hout : ∀ s', Outcome env { s with pendingEvents := [] } e s' →
      P { s' with pendingEvents := [] } s'.pendingEvents) :
    P (s.applyEntry env e).1 (s.applyEntry env e).2.1 := by
  unfold Store.applyEntry
  cases hcmd : e.cmd with
  | none => exact hsame
  | some cmd => exact hout _ (applyCommand_outcome env _ hcmd)

def touches (evs : List ChangeEvent) (r : KeyRef) : Prop := ∃ ev ∈ evs, ev.ref = r

/-- What an entry that completes no import does: the keys it announces are written at its revision
or removed. -/
def Store.Effect (s s' : Store) (evs : List ChangeEvent) (rev : Nat) : Prop :=
  ∀ r, (touches evs r → s'.Written rev r) ∧ (¬ touches evs r → s.SameAt s' r)

theorem effect_of_steps (rev : Nat) {tr : List Step} (h : AllowedAll rev x tr) :
    x.store.Effect (tr.foldl (Session.step rev) x).store (tr.flatMap Step.events) rev := by
  intro r
  have hat := foldl_step_at rev h r
  unfold touches
  rw [mem_events_iff]
  split_ifs at hat with hmoves
  · exact ⟨fun hne => absurd hmoves hne, fun _ => hat⟩
  · exact ⟨fun _ => hat, fun hno => absurd hmoves hno⟩

theorem effect_of_same {s' : Store} (hc : s'.collections = s.collections)
    (hr : s'.revisions = s.revisions) (rev : Nat) : s.Effect s' [] rev := by
  refine fun r => ⟨fun ⟨ev, hev, _⟩ => by simp at hev, fun _ => ⟨?_, ?_⟩⟩
  · rw [Store.valueAt, hc]
    rfl
  · rw [Store.revAt, hr]
    rfl

theorem applyLeaseCommand_cases (rev : Nat) (s : Store) (o : Operation) :
    (∃ res, s.applyLeaseCommand rev o = (s, res)) ∨
    (∃ id held res, (o.op = .leaseGrant ∧ id = rev ∧ held.keys = ∅ ∨
        o.op = .leaseKeepAlive ∧ id = o.lease ∧ s.leases[id]?.map (·.keys) = some held.keys) ∧
      s.applyLeaseCommand rev o = (Store.advance { s with leases := s.leases.insert id held } rev, .ok res)) ∨
    ∃ held, s.leases[o.lease]? = some held ∧
      s.applyLeaseCommand rev o = (Store.advance { s.deleteLeaseKeys o.lease held with
        leases := (s.deleteLeaseKeys o.lease held).leases.erase o.lease } rev, .ok .none) := by
  unfold Store.applyLeaseCommand
  cases hop : o.op with
  | leaseGrant =>
    split_ifs
    · exact .inl ⟨_, rfl⟩
    · exact .inr (.inl ⟨rev, _, _, .inl ⟨rfl, rfl, rfl⟩, rfl⟩)
  | leaseKeepAlive =>
    cases hheld : s.leases[o.lease]? with
    | none => exact .inl ⟨_, rfl⟩
    | some =>
      refine .inr (.inl ⟨o.lease, _, _, .inr ⟨rfl, rfl, ?_⟩, rfl⟩)
      rw [hheld]
      rfl
  | _ =>
    cases s.leases[o.lease]? with
    | none => exact .inl ⟨_, rfl⟩
    | some held => exact .inr (.inr ⟨held, rfl, rfl⟩)

theorem applyLeaseCommand_effect (htidy : s.TidyRevs) (rev : Nat) (o : Operation) :
    ∃ evs, (s.applyLeaseCommand rev o).1.pendingEvents = s.pendingEvents ++ evs ∧
      s.Effect (s.applyLeaseCommand rev o).1 evs rev := by
  rcases applyLeaseCommand_cases rev s o with ⟨res, heq⟩ | ⟨id, held, res, -, heq⟩ | ⟨held, -, heq⟩ <;> rw [heq]
  · exact ⟨[], (List.append_nil _).symm, effect_of_same rfl rfl rev⟩
  · exact ⟨[], (List.append_nil _).symm, effect_of_same rfl rfl rev⟩
  · obtain ⟨evs, hev, hat⟩ := deleteLeaseKeys_at htidy o.lease held
    refine ⟨evs, hev, fun r => ⟨fun ht => .inr ?_, fun hno => ?_⟩⟩
    · exact Prod.mk.inj ((hat r).trans (if_pos ht))
    · exact Prod.mk.inj ((hat r).trans (if_neg hno))

/-- **What an entry does to the revisions of the keys.** -/
theorem applyEntry_effect (env : Env) (htidy : s.TidyRevs) (himports : s.imports env e = none) :
    s.Effect (s.applyEntry env e).1 (s.applyEntry env e).2.1 e.index := by
  refine applyEntry_rule (P := fun s' evs => s.Effect s' evs e.index) env s e (effect_of_same rfl rfl _)
    fun s' hout => ?_
  have htidy' : Store.TidyRevs { s with pendingEvents := [] } := htidy
  have himports' : Store.imports env { s with pendingEvents := [] } e = none := himports
  suffices heffect : Store.Effect { s with pendingEvents := [] } s' s'.pendingEvents e.index from heffect
  cases hout with
  | steps hx hallowed =>
    have heffect := effect_of_steps e.index hallowed
    rw [hx] at heffect
    rw [foldl_step_pendingEvents, hx]
    exact heffect
  | rolledBack cmds =>
    -- the journal was played back, and nothing is announced
    have hevents : ∀ y : Session, (y.rolledBack { s with pendingEvents := [] }).pendingEvents = [] := by
      simp [Session.rolledBack]
    rw [hevents]
    exact fun r => ⟨fun ⟨ev, hev, _⟩ => by simp at hev, fun _ => rolledBack_sameAt env e.index htidy' cmds r⟩
  | staged => exact effect_of_same rfl rfl _
  | replaced _ hdone => exact absurd (hdone.symm.trans himports') (Option.some_ne_none _)
  | @lease o =>
    obtain ⟨evs, hev, heffect⟩ := applyLeaseCommand_effect htidy' e.index o
    rw [List.nil_append] at hev
    rw [hev]
    exact heffect

theorem applyEntry_imports (env : Env) {decoded : SnapshotContents}
    (h : s.imports env e = some decoded) :
    (s.applyEntry env e).1.collections = decoded.collections ∧
      (s.applyEntry env e).1.revisions = decoded.revisions ∧ (s.applyEntry env e).2.1 = [] := by
  unfold Store.imports at h
  split at h
  · rename_i o hcmd
    split_ifs at h with hop
    have hspec := applyImport_spec env e.index { s with pendingEvents := [] } o.chunk
    have hcompletes : o.chunk.bind (Store.completes env { s with pendingEvents := [] }) = some decoded := h
    rw [hcompletes] at hspec
    simp [Store.applyEntry, hcmd, applyCommand, applySingle, hop, hspec.2, Store.replaceBy, Store.recount]
  · cases h

/-- Every operation passed its checks in the state the ones before it left. -/
def Ran (env : Env) (rev : Nat) (x : Session) : List Operation → Session → Prop
  | [], y => y = x
  | o :: os, y => (∃ effect, verdict env (x.openCollection o.ref.collection).store o = .ok effect) ∧
    Ran env rev (x.step rev (o.step env x)) os y

theorem Ran.append {z : Session} {os os' : List Operation} (h : Ran env rev x os y)
    (h' : Ran env rev y os' z) : Ran env rev x (os ++ os') z := by
  induction os generalizing x with
  | nil =>
    have hyx : y = x := h
    exact hyx ▸ h'
  | cons o os ih => exact ⟨h.1, ih h.2⟩

theorem ran_of_applyToKey {o : Operation} {r : Response} (h : applyToKey env rev x o = (y, .ok r)) :
    Ran env rev x [o] y := by
  have hstate : (applyToKey env rev x o).1 = x.step rev (o.step env x) := applyToKey_fst x o
  rw [h] at hstate
  refine ⟨?_, hstate⟩
  unfold applyToKey at h
  cases hverdict : verdict env (x.openCollection o.ref.collection).store o with
  | error err => simp [hverdict] at h
  | ok effect => exact ⟨effect, rfl⟩

mutual

theorem ran_of_applyCommand {env : Env} {rev : Nat} {x y : Session} (hx : x.undo.isSome = true) :
    (cmd : Command) → {r : Response} → applyCommand env rev x cmd = (y, .ok r) →
      Ran env rev x cmd.operations y
  | .single o, r, h => by
    have hsingle := applySingle_of_undo env rev hx o
    rw [applyCommand] at h
    split_ifs at hsingle with hkey
    · rw [hsingle] at h
      exact ran_of_applyToKey h
    · obtain ⟨err, herr⟩ := hsingle
      rw [herr] at h
      cases h
  | .batch cmds, r, h => by
    rw [applyCommand_batch_of_undo env rev hx, Prod.mk.injEq] at h
    cases hall : (applyAll env rev x cmds).2 with
    | error err =>
      rw [hall] at h
      cases h.2
    | ok rs => exact ran_of_applyAll hx cmds (Prod.ext h.1 hall)

theorem ran_of_applyAll {env : Env} {rev : Nat} {x y : Session} (hx : x.undo.isSome = true) :
    (cmds : List Command) → {rs : List Response} → applyAll env rev x cmds = (y, .ok rs) →
      Ran env rev x (operationsAll cmds) y
  | [], rs, h => by
    exact (congrArg Prod.fst h).symm
  | cmd :: cmds, rs, h => by
    obtain ⟨z, r, rs', hcmd, hall, -⟩ := applyAll_cons_ok h
    have hz := applyCommand_isSome env rev hx cmd
    rw [hcmd] at hz
    exact (ran_of_applyCommand hx cmd hcmd).append (ran_of_applyAll hz cmds hall)

end

theorem Ran.before {os os' : List Operation} {o : Operation} (h : Ran env rev x (os ++ o :: os') y)
    (r : KeyRef) :
    ∃ z : Session, (∃ effect, verdict env (z.openCollection o.ref.collection).store o = .ok effect) ∧
      if ∃ o' ∈ os, o'.ref = r ∧ o'.op ≠ .check then z.store.Written rev r
      else x.store.SameAt z.store r := by
  induction os generalizing x with
  | nil => exact ⟨x, h.1, by rw [if_neg (by simp)]; exact ⟨rfl, rfl⟩⟩
  | cons o₁ os ih =>
    obtain ⟨z, hz, hat⟩ := ih h.2
    refine ⟨z, hz, ?_⟩
    obtain ⟨⟨effect, resp⟩, hverdict⟩ := h.1
    have hmove : (o₁.step env x).move ≠ none ↔ o₁.op ≠ .check := by
      have hkeep := (verdict_ok hverdict).kept
      rw [Operation.step, hverdict, ne_eq, ne_eq, ← hkeep]
      cases effect <;> simp [Step.move, Except.toOption]
    have hstep := step_at rev (step_allowed x o₁ : (o₁.step env x).Allowed x.store) r
    simp only [hmove, show (o₁.step env x).ref = o₁.ref from rfl] at hstep
    simp only [List.mem_cons, exists_eq_or_imp]
    by_cases hlater : ∃ o' ∈ os, o'.ref = r ∧ o'.op ≠ .check
    · rw [if_pos hlater] at hat
      rw [if_pos (.inr hlater)]
      exact hat
    · rw [if_neg hlater] at hat
      simp only [hlater, or_false]
      split_ifs at hstep ⊢
      · exact hat.written hstep
      · exact ⟨hat.1.trans hstep.1, hat.2.trans hstep.2⟩

/-- An entry that answers with a success, or changes something all the same. -/
def Store.Succeeds (env : Env) (s : Store) (e : Entry) : Prop :=
  failure (s.applyEntry env e).2.2 = none ∨ (s.applyEntry env e).2.1 ≠ []

theorem ran_of_succeeds {cmd : Command} (hcmd : e.cmd = some cmd) (h : s.Succeeds env e)
    (hkey : ∀ o, cmd = .single o → o.onKey = true) :
    ∃ x y : Session, x.store = { s with pendingEvents := [] } ∧ Ran env e.index x cmd.operations y := by
  unfold Store.Succeeds Store.applyEntry at h
  simp only [hcmd] at h
  cases cmd with
  | single o =>
    rw [applyCommand, applySingle_of_onKey (hkey o rfl)] at h
    rcases hres : applyToKey env e.index ⟨{ s with pendingEvents := [] }, none⟩ o with ⟨y, err | r⟩
    · -- an operation that is refused announces nothing
      have hopened : y.store.pendingEvents = [] := by rw [applyToKey_refused hres]; rfl
      rw [hres] at h
      simp [failure, hopened] at h
    · exact ⟨_, y, rfl, ran_of_applyToKey hres⟩
  | batch cmds =>
    rcases hall : applyAll env e.index (.start { s with pendingEvents := [] }) cmds with ⟨y, err | rs⟩
    · rw [applyCommand_batch_error hall] at h
      simp [failure, Session.rolledBack] at h
    · exact ⟨_, y, rfl, ran_of_applyAll (Session.start_undo _) cmds hall⟩

def Store.after (env : Env) (es : List Entry) : Store :=
  es.foldl (fun s e => (s.applyEntry env e).1) .empty

theorem after_take_succ (env : Env) {es : List Entry} {n : Nat} (he : es[n]? = some e) :
    Store.after env (es.take (n + 1)) = ((Store.after env (es.take n)).applyEntry env e).1 := by
  rw [List.take_add_one, he, Store.after, List.foldl_append]
  rfl

/-- The entries of a log, in order. -/
def InLogOrder (es : List Entry) : Prop := es.Pairwise (·.index < ·.index) ∧ ∀ e ∈ es, 0 < e.index

def announced (env : Env) (es : List Entry) (n : Nat) (e : Entry) : List ChangeEvent :=
  ((Store.after env (es.take n)).applyEntry env e).2.1

/-- An entry writes the key, deletes it, or replaces it by an import. -/
def Replaces (env : Env) (es : List Entry) (ref : KeyRef) (n : Nat) : Prop :=
  ∃ e, es[n]? = some e ∧
    (touches (announced env es n e) ref ∨ (Store.after env (es.take n)).imports env e ≠ none)

def Reads (env : Env) (es : List Entry) (ref : KeyRef) (rev m : Nat) : Prop :=
  ((Store.after env (es.take m)).valueAt ref).isSome = true ∧
    ((Store.after env (es.take m)).revAt ref).getD 0 = rev

/-- **Conditional writes are sound**: revisions grow, and a condition fails once the key was
replaced. -/
structure SoundRevisions (env : Env) (es : List Entry) : Prop where
  grows : ∀ (n : Nat) (e : Entry), es[n]? = some e → ∀ ref, touches (announced env es n e) ref →
    ((Store.after env (es.take (n + 1))).valueAt ref).isSome = true →
      (Store.after env (es.take (n + 1))).revAt ref = some e.index ∧
        ∀ m ≤ n, ∀ ref' rev, (Store.after env (es.take m)).revAt ref' = some rev → rev < e.index
  holds : ∀ (n : Nat) (e : Entry), es[n]? = some e → ∀ cmd, e.cmd = some cmd →
    (Store.after env (es.take n)).Succeeds env e → ∀ os o os' rev, cmd.operations = os ++ o :: os' →
      o.onKey = true → o.ifRev = some rev → ∀ m ≤ n, Reads env es o.ref rev m →
        (∀ k, m ≤ k → k < n → ¬ Replaces env es o.ref k) ∧ ∀ o' ∈ os, o'.ref = o.ref → o'.op = .check

/-- A backup with the revisions of this log so far, none of which its key has had before. -/
structure FreshImport (env : Env) (es : List Entry) (n : Nat) (e : Entry) (d : SnapshotContents) :
    Prop where
  tidy : ∀ c k, (d.collections.lookup c k).isSome = true ↔ (d.revisions.lookup c k).isSome = true
  bounded : ∀ c k r, d.revisions.lookup c k = some r → 0 < r ∧ r ≤ e.index
  new : ∀ c k r, d.revisions.lookup c k = some r → ∀ m ≤ n,
    (Store.after env (es.take m)).revAt ⟨c, k⟩ ≠ some r

def FreshImports (env : Env) (es : List Entry) : Prop :=
  ∀ (n : Nat) (e : Entry) (d : SnapshotContents), es[n]? = some e →
    (Store.after env (es.take n)).imports env e = some d → FreshImport env es n e d

section Runs

variable {env : Env} {es : List Entry} {e : Entry} {n : Nat}

theorem index_lt (hlog : InLogOrder es) {k : Nat} {e' : Entry} (hn : es[n]? = some e)
    (hk : es[k]? = some e') (hlt : n < k) : e.index < e'.index := by
  obtain ⟨hnlt, rfl⟩ := List.getElem?_eq_some_iff.mp hn
  obtain ⟨hklt, rfl⟩ := List.getElem?_eq_some_iff.mp hk
  exact List.pairwise_iff_getElem.mp hlog.1 n k hnlt hklt hlt

/-- Keys and revisions go together, below the entries to come. -/
structure RevsBelow (env : Env) (es : List Entry) (n : Nat) : Prop where
  tidy : (Store.after env (es.take n)).TidyRevs
  below : ∀ ref rev, (Store.after env (es.take n)).revAt ref = some rev →
    0 < rev ∧ ∀ k e, n ≤ k → es[k]? = some e → rev < e.index

theorem entry_at (hfresh : FreshImports env es) (hn : RevsBelow env es n) (he : es[n]? = some e)
    (ref : KeyRef) :
    (∃ d, FreshImport env es n e d ∧
        (Store.after env (es.take (n + 1))).valueAt ref = d.collections.lookup ref.collection ref.key ∧
        (Store.after env (es.take (n + 1))).revAt ref = d.revisions.lookup ref.collection ref.key) ∨
      (Store.after env (es.take (n + 1))).Written e.index ref ∨
      ¬ Replaces env es ref n ∧
        (Store.after env (es.take n)).SameAt (Store.after env (es.take (n + 1))) ref := by
  rw [after_take_succ env he]
  cases himports : (Store.after env (es.take n)).imports env e with
  | some d =>
    obtain ⟨hc, hr, -⟩ := applyEntry_imports env himports
    refine .inl ⟨d, hfresh n e d he himports, ?_, ?_⟩
    · rw [Store.valueAt, hc]
    · rw [Store.revAt, hr]
  | none =>
    have heffect := applyEntry_effect env hn.tidy himports ref
    by_cases htouches : touches (announced env es n e) ref
    · exact .inr (.inl (heffect.1 htouches))
    · refine .inr (.inr ⟨?_, heffect.2 htouches⟩)
      rintro ⟨e', he', hwhat⟩
      cases he.symm.trans he'
      exact hwhat.elim htouches (· himports)

variable (hlog : InLogOrder es) (hfresh : FreshImports env es)

include hlog hfresh

theorem revsBelow_succ (hn : RevsBelow env es n) (he : es[n]? = some e) : RevsBelow env es (n + 1) := by
  refine ⟨fun ref => ?_, fun ref rev hrev => ?_⟩
  · rcases entry_at hfresh hn he ref with ⟨d, hd, hv, hr⟩ | (⟨hv, hr⟩ | ⟨hv, hr⟩) | ⟨-, hsame⟩
    · rw [hv, hr]
      exact hd.tidy _ _
    · exact iff_of_true hv (by rw [hr]; rfl)
    · simp [hv, hr]
    · rw [hsame.1, hsame.2]
      exact hn.tidy ref
  · rcases entry_at hfresh hn he ref with ⟨d, hd, -, hr⟩ | (⟨-, hr⟩ | ⟨-, hr⟩) | ⟨-, hsame⟩
    · rw [hr] at hrev
      obtain ⟨hpos, hle⟩ := hd.bounded _ _ _ hrev
      exact ⟨hpos, fun k e' hk hk' => hle.trans_lt (index_lt hlog he hk' hk)⟩
    · rw [hr, Option.some.injEq] at hrev
      subst hrev
      exact ⟨hlog.2 e (List.mem_of_getElem? he), fun k e' hk hk' => index_lt hlog he hk' hk⟩
    · simp [hr] at hrev
    · rw [hsame.2] at hrev
      obtain ⟨hpos, hlt⟩ := hn.below ref rev hrev
      exact ⟨hpos, fun k e' hk hk' => hlt k e' (by omega) hk'⟩

theorem revsBelow (n : Nat) : RevsBelow env es n := by
  induction n with
  | zero =>
    have hempty : Store.after env (es.take 0) = .empty := rfl
    refine ⟨fun ref => ?_, fun ref rev hrev => ?_⟩
    · rw [hempty]
      simp [Store.valueAt, Store.revAt, Store.empty, Nested.lookup]
    · rw [hempty] at hrev
      simp [Store.revAt, Store.empty, Nested.lookup] at hrev
  | succ n ih =>
    cases he : es[n]? with
    | some e => exact revsBelow_succ hlog hfresh ih he
    | none =>
      -- the run is over
      obtain ⟨htidy, hbelow⟩ := ih
      have htake : es.take (n + 1) = es.take n := by simp [List.take_add_one, he]
      rw [← htake] at htidy hbelow
      exact ⟨htidy, fun ref rev hrev => (hbelow ref rev hrev).imp_right fun hlt k e hk => hlt k e (by omega)⟩

theorem not_replaces_of_revAt {ref : KeyRef} {m : Nat} (hmn : m ≤ n)
    (hm : (Store.after env (es.take m)).revAt ref = some rev)
    (hn : (Store.after env (es.take n)).revAt ref = some rev) :
    ∀ k, m ≤ k → k < n → ¬ Replaces env es ref k := by
  induction n, hmn using Nat.le_induction with
  | base => intro k hk hlt; omega
  | succ n hmn ih =>
    intro k hk hlt hreplaces
    cases he : es[n]? with
    | none =>
      have htake : es.take (n + 1) = es.take n := by simp [List.take_add_one, he]
      rw [htake] at hn
      rcases Nat.lt_succ_iff_lt_or_eq.mp hlt with hkn | rfl
      · exact ih hn k hk hkn hreplaces
      · obtain ⟨e, he', -⟩ := hreplaces
        simp [he] at he'
    | some e =>
      rcases entry_at hfresh (revsBelow hlog hfresh n) he ref with
        ⟨d, hd, -, hr⟩ | (⟨-, hr⟩ | ⟨-, hr⟩) | ⟨hno, hsame⟩
      · exact hd.new _ _ rev (hr.symm.trans hn) m hmn hm
      · -- a revision given now is above the one that was seen
        rw [hr, Option.some.injEq] at hn
        have hlt := ((revsBelow hlog hfresh m).below ref rev hm).2 n e hmn he
        omega
      · simp [hr] at hn
      · rcases Nat.lt_succ_iff_lt_or_eq.mp hlt with hkn | rfl
        · exact ih (hsame.2.symm.trans hn) k hk hkn hreplaces
        · exact hno hreplaces

omit hlog hfresh

/-- **Conditional writes are sound when every import is fresh.** -/
theorem soundRevisions_of_fresh (hlog : InLogOrder es) (hfresh : FreshImports env es) :
    SoundRevisions env es where
  grows := by
    intro n e he ref htouches hthere
    have hbelow : ∀ m ≤ n, ∀ ref' rev, (Store.after env (es.take m)).revAt ref' = some rev →
        rev < e.index :=
      fun m hm ref' rev hrev => ((revsBelow hlog hfresh m).below ref' rev hrev).2 n e hm he
    refine ⟨?_, hbelow⟩
    have hwritten : (Store.after env (es.take (n + 1))).Written e.index ref := by
      rw [after_take_succ env he]
      cases himports : (Store.after env (es.take n)).imports env e with
      | none => exact (applyEntry_effect env (revsBelow hlog hfresh n).tidy himports ref).1 htouches
      | some d =>
        obtain ⟨ev, hev, -⟩ := htouches
        rw [announced, (applyEntry_imports env himports).2.2] at hev
        cases hev
    rcases hwritten with ⟨-, hr⟩ | ⟨hv, -⟩
    · exact hr
    · simp [hv] at hthere
  holds := by
    intro n e he cmd hcmd hsucceeds os o os' rev hops hkey hif m hmn hreads
    obtain ⟨x, y, hx, hran⟩ := ran_of_succeeds hcmd hsucceeds (by
      rintro o' rfl
      rw [Command.operations] at hops
      have hmem : o ∈ [o'] := by rw [hops]; simp
      exact List.mem_singleton.mp hmem ▸ hkey)
    rw [hops] at hran
    obtain ⟨z, ⟨⟨effect, resp⟩, hverdict⟩, hat⟩ := hran.before o.ref
    have hfound := (verdict_ok hverdict).revision rev hif
    rw [(openCollection_spec z o.ref.collection).revAt] at hfound
    -- what the reader saw is a revision on record
    have hseen : (Store.after env (es.take m)).revAt o.ref = some rev := by
      obtain ⟨r, hr⟩ := Option.isSome_iff_exists.mp (((revsBelow hlog hfresh m).tidy o.ref).mp hreads.1)
      have hrev := hreads.2
      rw [hr] at hrev ⊢
      exact congrArg some hrev
    obtain ⟨hpos, hlt⟩ := (revsBelow hlog hfresh m).below o.ref rev hseen
    split_ifs at hat with hearlier
    · -- an operation before it in the entry has written the key at the index of the entry
      rcases hat with ⟨-, hr⟩ | ⟨-, hr⟩
      · rw [hr] at hfound
        have := hlt n e hmn he
        simp only [Option.getD_some] at hfound
        omega
      · simp [hr] at hfound
        omega
    · refine ⟨?_, fun o' hin href => by_contra fun hop => hearlier ⟨o', hin, href, hop⟩⟩
      have hnow : (Store.after env (es.take n)).revAt o.ref = some rev := by
        have hsame : z.store.revAt o.ref = (Store.after env (es.take n)).revAt o.ref := by
          rw [hat.2, hx]
          rfl
        rw [hsame] at hfound
        cases hr : (Store.after env (es.take n)).revAt o.ref <;> grind
      exact not_replaces_of_revAt hlog hfresh hmn hseen hnow

end Runs

def writes (index : Nat) (key : Name) (ifRev : Option Nat) : Entry :=
  ⟨index, some (.single ⟨.upsert, ⟨"jobs", key⟩, [0x31], "", [], ifRev, 0, 0, 0, none⟩)⟩

def restores (index : Nat) (data : List UInt8) : Entry :=
  ⟨index, some (.single ⟨.importChunk, ⟨"", ""⟩, [], "", [], none, 0, 0, 0, some ⟨"t", 0, data, true, false⟩⟩)⟩

def Store.contents (s : Store) : SnapshotContents := ⟨s.collections, s.revisions, s.revision, [], none⟩

/-- Backups of two clusters, both with `a` of revision 1; the other one has `b` of revision 100. -/
def twoClusters : Env where
  mutations := fun _ => none
  decodeSnapshot := fun data =>
    if data = [1] then .ok (Store.after jobs [writes 1 "a" none, writes 100 "b" none]).contents
    else if data = [2] then .ok (Store.after jobs [writes 2 "b" none]).contents
    else .error "unexpected end of JSON input"
  valid := fun _ => true

def overwritten : List Entry := [writes 1 "a" none, writes 2 "a" none, restores 3 [1], writes 4 "a" (some 1)]

/-- The write on condition of revision 1 succeeds although the key was replaced since, and
gets a revision below the one of `b`. -/
theorem overwritten_unsound : InLogOrder overwritten ∧ ¬ SoundRevisions twoClusters overwritten ∧
    (Reads twoClusters overwritten ⟨"jobs", "a"⟩ 1 1 ∧ Replaces twoClusters overwritten ⟨"jobs", "a"⟩ 1 ∧
      (Store.after twoClusters (overwritten.take 3)).Succeeds twoClusters (writes 4 "a" (some 1))) ∧
    (Store.after twoClusters (overwritten.take 3)).revAt ⟨"jobs", "b"⟩ = some 100 ∧
      (Store.after twoClusters (overwritten.take 4)).revAt ⟨"jobs", "a"⟩ = some 4 := by
  have hreads : Reads twoClusters overwritten ⟨"jobs", "a"⟩ 1 1 := by
    unfold Reads
    decide +kernel
  have hreplaces : Replaces twoClusters overwritten ⟨"jobs", "a"⟩ 1 := by
    have hevent : announced twoClusters overwritten 1 (writes 2 "a" none) =
        [⟨⟨"jobs", "a"⟩, [0x31], false⟩] := by decide +kernel
    exact ⟨_, rfl, .inl (by rw [hevent]; exact ⟨_, List.mem_cons_self, rfl⟩)⟩
  have hsucceeds : (Store.after twoClusters (overwritten.take 3)).Succeeds twoClusters
      (writes 4 "a" (some 1)) := by
    unfold Store.Succeeds
    decide +kernel
  refine ⟨⟨by simp [overwritten, writes, restores], by simp [overwritten, writes, restores]⟩, ?_,
    ⟨hreads, hreplaces, hsucceeds⟩, by decide +kernel⟩
  intro hsound
  have hholds := hsound.holds 3 _ rfl _ rfl hsucceeds [] _ [] 1 rfl rfl rfl 1 (by decide) hreads
  exact hholds.1 1 le_rfl (by decide) hreplaces

/-- The key `b` comes with a fresh backup, and is written on condition of its revision. -/
def restored : List Entry := [writes 1 "a" none, restores 5 [2], writes 6 "b" (some 2)]

theorem restored_sound : SoundRevisions twoClusters restored := by
  refine soundRevisions_of_fresh
    ⟨by simp [restored, writes, restores], by simp [restored, writes, restores]⟩ ?_
  intro n e d he himports
  rcases n with _ | _ | _ | n
  · cases he
    cases himports
  · obtain rfl : restores 5 [2] = e := Option.some.inj he
    have hd : (Store.after jobs [writes 2 "b" none]).contents = d := Option.some.inj himports
    have hstore : Store.after jobs [writes 2 "b" none] =
        { Store.empty with
          collections := ((∅ : Nested Name Name Value).opened "jobs").set "jobs" "b" [0x31]
          revisions := ((∅ : Nested Name Name Nat).opened "jobs").set "jobs" "b" 2
          revision := 2, stateBytes := 2, keyCount := 1 } := by decide +kernel
    subst hd
    rw [hstore]
    have hempty : ∀ {γ : Type} (c k : Name), (∅ : Nested Name Name γ).lookup c k = none := by
      simp [Nested.lookup]
    refine ⟨fun c k => ?_, fun c k r hr => ?_, fun c k r hr m hm => ?_⟩
    · simp only [Store.contents, Nested.lookup_set, Nested.lookup_opened, hempty]
      split_ifs <;> simp
    · simp only [Store.contents, Nested.lookup_set, Nested.lookup_opened, hempty] at hr
      split_ifs at hr
      cases hr
      decide
    · simp only [Store.contents, Nested.lookup_set, Nested.lookup_opened, hempty] at hr
      split_ifs at hr with hkey
      cases hr
      obtain ⟨rfl, rfl⟩ := hkey
      rcases m with _ | _ | m
      · decide +kernel
      · decide +kernel
      · omega
  · cases he
    cases himports
  · cases he

end Raft.Easyraft
