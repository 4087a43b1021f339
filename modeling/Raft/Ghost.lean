import Mathlib.Logic.Function.Basic
import Mathlib.Logic.Relation
import Mathlib.Order.Basic

/-!
# Components with a shared record

A family of components changes one component at a time.  What is true of a component
often rests on what the others have done before: who has promised what to whom.  Such
facts are kept in a record to which every component adds its own part, and which only
grows.  A property of a component that holds up when the others add to the record has
to be checked only when the component itself changes.

## Main definitions

* `Ghost.Invariant`: what is said about the record, and about a component under it.
* `Ghost.Invariant.Holds`: both, for a whole family.

## Main results

* `Holds.update`: the rule for a sequence of changes at one component.
-/

namespace Ghost

variable {ι S δ : Type*} [Preorder δ]

/-- A property of a record and of every component under it, kept when only the parts of others grow.
-/
structure Invariant (ι S δ : Type*) [Preorder δ] where
  shared : (ι → δ) → Prop
  component : (ι → δ) → ι → S → Prop
  mono : ∀ {g g' : ι → δ} {i : ι} {s : S}, g ≤ g' → g' i = g i → component g i s → component g' i s

theorem le_update [DecidableEq ι] {g : ι → δ} {i : ι} {d : δ} (h : g i ≤ d) :
    g ≤ Function.update g i d := by
  intro j
  by_cases hj : j = i
  · subst hj
    rwa [Function.update_self]
  · rw [Function.update_of_ne hj]

namespace Invariant

variable (I : Invariant ι S δ)

/-- The record and all components are as the invariant says. -/
structure Holds (g : ι → δ) (σ : ι → S) : Prop where
  shared : I.shared g
  component : ∀ i, I.component g i (σ i)

variable {I}

/-- **Changes at one component** that keep its invariant keep that of all.  `T` is what else
is known meanwhile. -/
theorem Holds.update [DecidableEq ι] {R : S → S → Prop} {T : S → Prop} {g : ι → δ} {σ : ι → S}
    {i : ι} {s : S} (h : I.Holds g σ) (hT : T (σ i))
    (hstep : ∀ d s s', g i ≤ d → I.shared (Function.update g i d) →
      I.component (Function.update g i d) i s → T s → R s s' →
      ∃ d', d ≤ d' ∧ I.shared (Function.update g i d') ∧
        I.component (Function.update g i d') i s' ∧ T s')
    (hR : Relation.ReflTransGen R (σ i) s) :
    ∃ g', g ≤ g' ∧ I.Holds g' (Function.update σ i s) ∧ T s := by
  have hchain : ∃ d, g i ≤ d ∧ I.shared (Function.update g i d) ∧
      I.component (Function.update g i d) i s ∧ T s := by
    induction hR with
    | refl =>
      refine ⟨g i, le_refl _, ?_, ?_, hT⟩ <;> rw [Function.update_eq_self]
      · exact h.shared
      · exact h.component i
    | tail _ hlast ih =>
      obtain ⟨d, hle, hd, hs, hTs⟩ := ih
      obtain ⟨d', hle', hd', hs', hTs'⟩ := hstep d _ _ hle hd hs hTs hlast
      exact ⟨d', hle.trans hle', hd', hs', hTs'⟩
  obtain ⟨d, hle, hd, hs, hTs⟩ := hchain
  refine ⟨Function.update g i d, le_update hle, ⟨hd, fun j => ?_⟩, hTs⟩
  by_cases hj : j = i
  · subst hj
    rwa [Function.update_self]
  · rw [Function.update_of_ne hj]
    exact I.mono (le_update hle) (Function.update_of_ne hj ..) (h.component j)

end Invariant

end Ghost
