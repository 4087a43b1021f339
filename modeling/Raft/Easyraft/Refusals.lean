import Raft.Easyraft.Replicas

/-!
# Refused commands

A command that is answered with an error should leave the store as it was.  Two things stay behind:
the maps of its collection are made before anything is checked, and the last piece of a backup that
cannot be read takes whatever is staged with it.
-/

namespace Raft.Easyraft

open Std Token

theorem streamCollections_revisions {collections : Nested Name Name Value}
    {revisions revisions' : Nested Name Name Nat} {revision : Nat} {leases : List LeaseSnapshot}
    {staged : Option ImportState} (h : streamCollections collections revisions revision leases staged =
      streamCollections collections revisions' revision leases staged) : revisions.keys = revisions'.keys := by
  have hread : ∀ m : Nested Name Name Nat, readRevisions strictCodec
      (obj :: (separated (m.toList.map fun e => name e.1 :: colon :: streamRevisions e.2) ++ [close])) =
        .ok (m.toList.map fun e => (e.1, e.2.toList), []) := by
    intro m
    rw [← readRevisions_tokens strictCodec]
    simp [Part.tokens, streamRevisions, member, Function.comp_def]
  simp only [streamCollections, List.append_cancel_right_eq, List.append_cancel_left_eq, member,
    List.cons.injEq, true_and] at h
  have hsame := hread revisions
  rw [h, hread revisions'] at hsame
  have hkeys := congrArg (List.map Prod.fst) (Prod.mk.inj (Except.ok.inj hsame)).1
  simpa [Function.comp_def, ← ExtTreeMap.map_fst_toList_eq_keys] using hkeys.symm

/-- A client sees the same as before, and nothing is announced. -/
def Untouched (s s' : Store) (evs : List ChangeEvent) : Prop :=
  s'.view = s.view ∧ s'.collections.keys = s.collections.keys ∧ evs = []

theorem untouched_opened_iff (s : Store) (c : Name) :
    Untouched s { s with
      collections := s.collections.opened c, revisions := s.revisions.opened c, pendingEvents := [] } [] ↔
      c ∈ s.collections ∧ c ∈ s.revisions := by
  constructor
  · rintro ⟨hview, hkeys, -⟩
    have hin := Nested.mem_of_opened_keys hkeys
    have hsnapshot : streamCollections (s.collections.opened c) (s.revisions.opened c) s.revision
        s.leaseSnapshot s.importing = s.snapshot := congrArg View.snapshot hview
    rw [Nested.opened_of_mem hin] at hsnapshot
    exact ⟨hin, Nested.mem_of_opened_keys (streamCollections_revisions hsnapshot)⟩
  · rintro ⟨hin, hrevs⟩
    rw [Nested.opened_of_mem hin, Nested.opened_of_mem hrevs]
    exact ⟨rfl, rfl, rfl⟩

/-- The piece completes a backup that cannot be read. -/
def Store.Unreadable (env : Env) (s : Store) (chunk : ImportChunk) : Prop :=
  chunk.final = true ∧ ∃ buf reason,
    s.awaits chunk = some buf ∧ env.decodeSnapshot (buf ++ chunk.data) = .error reason

/-- **A refused command leaves nothing behind exactly if** its collection is there with its
revisions, and it does not complete a backup that cannot be read, with another one staged. -/
theorem refused_untouched_iff (env : Env) (s s' : Store) (rev : Nat) (o : Operation)
    (evs : List ChangeEvent) (err : StoreError)
    (h : s.applyEntry env ⟨rev, some (.single o)⟩ = (s', evs, .error err)) :
    Untouched s s' evs ↔
      (o.onKey = true → o.ref.collection ∈ s.collections ∧ o.ref.collection ∈ s.revisions) ∧
      (o.op = .importChunk → ∀ chunk, o.chunk = some chunk → s.Unreadable env chunk → s.importing = none) := by
  simp only [Store.applyEntry, applyCommand, Prod.mk.injEq] at h
  rcases applySingle_cases env rev { s with pendingEvents := [] } o with
    ⟨hkey, heq⟩ | ⟨himport, heq⟩ | ⟨hkey, himport, heq⟩ <;> rw [heq] at h
  · have hop : o.op ≠ .importChunk := fun hop => by simp [Operation.onKey, hop] at hkey
    unfold applyToKey at h
    dsimp only at h
    split at h
    · obtain ⟨rfl, rfl, -⟩ := h
      refine (untouched_opened_iff s o.ref.collection).trans ?_
      simp [hkey, hop]
    · cases h.2.2
  · have hkey : o.onKey = false := by simp [Operation.onKey, himport]
    cases hchunk : o.chunk with
    | none =>
      rw [hchunk] at h
      obtain ⟨rfl, rfl, -⟩ := h
      exact iff_of_true ⟨rfl, rfl, rfl⟩ (by simp [hkey])
    | some chunk =>
      obtain ⟨err', heq⟩ := applyImport_eq env rev { s with pendingEvents := [] } chunk
      rw [hchunk, heq] at h
      split at h
      · cases h.2.2
      cases hbuf : s.awaits chunk with
      | none =>
        rw [show Store.awaits { s with pendingEvents := [] } chunk = none from hbuf] at h
        obtain ⟨rfl, rfl, -⟩ := h
        refine iff_of_true ⟨rfl, rfl, rfl⟩ ⟨by simp [hkey], fun _ chunk' hchunk' hbad => ?_⟩
        obtain rfl := Option.some.inj hchunk'
        obtain ⟨-, buf, -, hsome, -⟩ := hbad
        rw [hbuf] at hsome
        cases hsome
      | some buf =>
        rw [show Store.awaits { s with pendingEvents := [] } chunk = some buf from hbuf] at h
        dsimp only at h
        split at h
        case isTrue hfinal =>
          split at h
          case h_1 reason hdecode =>
            -- a backup that cannot be read takes what was staged with it
            obtain ⟨rfl, rfl, -⟩ := h
            refine ⟨fun h => ⟨by simp [hkey], fun _ _ _ _ => (congrArg View.importing h.1).symm⟩, fun h => ?_⟩
            have hnone : s.importing = none := h.2 himport chunk rfl ⟨hfinal, buf, reason, hbuf, hdecode⟩
            rw [← hnone]
            exact ⟨rfl, rfl, rfl⟩
          · cases h.2.2
        · cases h.2.2
  · rcases applyLeaseCommand_cases rev { s with pendingEvents := [] } o with
      ⟨res, heq⟩ | ⟨id, held, res, -, heq⟩ | ⟨held, -, heq⟩ <;> rw [heq] at h
    · obtain ⟨rfl, rfl, -⟩ := h
      exact iff_of_true ⟨rfl, rfl, rfl⟩ ⟨by simp [hkey], fun hop => absurd hop himport⟩
    · cases h.2.2
    · cases h.2.2

/-- A job that exists is not created again, and nothing changes. -/
theorem refused_untouched_created :
    ∃ r, created.applyEntry jobs ⟨2, some (.single (.on .create ⟨"jobs", "a"⟩ [0x31] ""))⟩ = r ∧
      Untouched created r.1 r.2.1 :=
  ⟨_, rfl, (refused_untouched_iff jobs created _ 2 (.on .create ⟨"jobs", "a"⟩ [0x31] "") _ .keyExists rfl).mpr
    ⟨fun _ => by decide +kernel, by simp [Operation.on]⟩⟩

/-- An update of a key that is not there leaves an empty collection behind, also in the snapshot. -/
theorem refused_leaves_collection :
    ∃ r, Store.empty.applyEntry jobs ⟨1, some (.single (.on .update ⟨"jobs", "a"⟩ [0x31] ""))⟩ = r ∧
      failure r.2.2 = some .keyNotFound ∧ r.1.collections.keys = ["jobs"] ∧
      r.1.snapshot ≠ Store.empty.snapshot :=
  ⟨_, rfl, by decide +kernel⟩

end Raft.Easyraft
