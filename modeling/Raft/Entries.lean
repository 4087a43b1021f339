import Mathlib.Algebra.BigOperators.Group.List.Basic
import Mathlib.Algebra.Order.BigOperators.Group.List
import Mathlib.Algebra.Ring.Int.Defs
import Raft.Nested

/-!
# The entries of a map

A map and the list of its entries: the map can be built again from the list, and what a quantity
sums up to over the entries changes with each of them.

## Main results

* `foldl_insert_toList`: a map is built again from its entries.
* `Nested.total_set`, `Nested.total_remove`: one entry more, or one less.
-/

namespace Raft

open Std

variable {α β γ : Type} [Ord α] [TransOrd α] [LawfulEqOrd α] [DecidableEq α] {a : α}
  {m : ExtTreeMap α γ}

/-- **A map is built again from its entries.** -/
theorem foldl_insert_toList (m : ExtTreeMap α γ) : m.toList.foldl (fun acc e => acc.insert e.1 e.2) ∅ = m := by
  rw [← ExtTreeMap.ofList_eq_foldl]
  refine ExtTreeMap.ext_getElem? fun a => ?_
  cases h : m[a]? with
  | some c =>
    exact ExtTreeMap.getElem?_ofList_of_mem ReflCmp.compare_self ExtTreeMap.distinct_keys_toList
      (ExtTreeMap.mem_toList_iff_getElem?_eq_some.mpr h)
  | none =>
    have hno : ∀ c, (a, c) ∉ m.toList := by
      intro c hc
      rw [ExtTreeMap.mem_toList_iff_getElem?_eq_some, h] at hc
      cases hc
    have hkeys : (m.toList.map Prod.fst).contains a = false := by
      rw [List.contains_eq_mem]
      simpa only [decide_eq_false_iff_not, List.mem_map, Prod.exists, exists_and_right, exists_eq_right,
        not_exists] using hno
    exact ExtTreeMap.getElem?_ofList_of_contains_eq_false hkeys

omit [DecidableEq α] in
theorem foldl_insert_set_toList (m : ExtTreeSet α) : m.toList.foldl (·.insert ·) ∅ = m := by
  have hmem : ∀ (as : List α) (acc : ExtTreeSet α) (a : α),
      a ∈ as.foldl (·.insert ·) acc ↔ a ∈ as ∨ a ∈ acc := by
    intro as
    induction as with
    | nil => simp
    | cons b as ih =>
      intro acc a
      rw [List.foldl_cons, ih, ExtTreeSet.mem_insert, Std.compare_eq_iff_eq, List.mem_cons]
      tauto
  refine ExtTreeSet.ext_mem fun a => ?_
  rw [hmem, ExtTreeSet.mem_toList]
  simp

def total (f : α → γ → Int) (m : ExtTreeMap α γ) : Int := (m.toList.map fun e => f e.1 e.2).sum

omit [DecidableEq α] in
theorem nodup_toList (m : ExtTreeMap α γ) : m.toList.Nodup := by
  refine List.Pairwise.imp (fun hne heq => hne ?_) ExtTreeMap.distinct_keys_toList
  rw [heq]
  exact ReflCmp.compare_self

theorem toList_perm_cons {c : γ} (h : m[a]? = some c) :
    m.toList.Perm ((a, c) :: (m.erase a).toList) := by
  have hnot : (a, c) ∉ (m.erase a).toList := by
    simp
  refine (List.perm_ext_iff_of_nodup (nodup_toList m)
    (List.nodup_cons.mpr ⟨hnot, nodup_toList _⟩)).mpr ?_
  rintro ⟨x, y⟩
  rw [List.mem_cons, ExtTreeMap.mem_toList_iff_getElem?_eq_some,
    ExtTreeMap.mem_toList_iff_getElem?_eq_some, ExtTreeMap.getElem?_erase, Prod.mk.injEq]
  by_cases hx : a = x
  · subst hx
    simp [h, eq_comm]
  · simp [hx, Ne.symm hx]

variable (f : α → γ → Int)

omit [LawfulEqOrd α] [DecidableEq α] in
@[simp] theorem total_empty : total f (∅ : ExtTreeMap α γ) = 0 := by
  have hnil : (∅ : ExtTreeMap α γ).toList = [] := ExtTreeMap.toList_eq_nil_iff.mpr rfl
  rw [total, hnil, List.map_nil, List.sum_nil]

theorem total_of_getElem? {c : γ} (h : m[a]? = some c) :
    total f m = f a c + total f (m.erase a) := by
  rw [total, ((toList_perm_cons h).map _).sum_eq, List.map_cons, List.sum_cons, total]

theorem erase_of_none (h : m[a]? = none) : m.erase a = m := by
  refine ExtTreeMap.ext_getElem? fun x => ?_
  rw [ExtTreeMap.getElem?_erase]
  simp only [Std.compare_eq_iff_eq]
  split_ifs with hx
  · rw [← hx, h]
  · rfl

theorem total_erase (m : ExtTreeMap α γ) (a : α) :
    total f (m.erase a) = total f m - (m[a]?.elim 0 (f a)) := by
  cases h : m[a]? with
  | none => simp [erase_of_none h]
  | some c =>
    rw [total_of_getElem? f h, Option.elim_some]
    omega

omit [DecidableEq α] in
theorem erase_insert (m : ExtTreeMap α γ) (a : α) (c : γ) : (m.insert a c).erase a = m.erase a := by
  refine ExtTreeMap.ext_getElem? fun x => ?_
  rw [ExtTreeMap.getElem?_erase, ExtTreeMap.getElem?_erase, ExtTreeMap.getElem?_insert]
  split_ifs <;> rfl

theorem total_insert (m : ExtTreeMap α γ) (a : α) (c : γ) :
    total f (m.insert a c) = total f m - (m[a]?.elim 0 (f a)) + f a c := by
  rw [total_of_getElem? f (ExtTreeMap.getElem?_insert_self), erase_insert, total_erase]
  omega

namespace Nested

variable [Ord β] [TransOrd β] [LawfulEqOrd β] [DecidableEq β]

protected def total (f : α → β → γ → Int) (m : Nested α β γ) : Int :=
  Raft.total (fun a inner => Raft.total (f a) inner) m

variable (f : α → β → γ → Int)

omit [LawfulEqOrd α] [DecidableEq α] [LawfulEqOrd β] [DecidableEq β] in
theorem elim_inner (m : Nested α β γ) (a : α) :
    (m[a]?.elim 0 fun inner => Raft.total (f a) inner) = Raft.total (f a) (m.inner a) := by
  unfold inner
  cases m[a]? <;> simp

theorem total_set (m : Nested α β γ) (a : α) (b : β) (c : γ) :
    (m.set a b c).total f = m.total f - ((m.lookup a b).elim 0 (f a b)) + f a b c := by
  rw [Nested.total, set, total_insert, elim_inner, total_insert, lookup_inner, Nested.total]
  omega

theorem total_remove (m : Nested α β γ) (a : α) (b : β) :
    (m.remove a b).total f = m.total f - ((m.lookup a b).elim 0 (f a b)) := by
  cases h : m[a]? with
  | none =>
    have hsame : m.remove a b = m := by
      refine ExtTreeMap.ext_getElem? fun x => ?_
      rw [remove, ExtTreeMap.getElem?_modify]
      simp only [Std.compare_eq_iff_eq]
      split_ifs with hx
      · rw [← hx, h, Option.map_none]
      · rfl
    rw [hsame, lookup, h]
    simp
  | some inner =>
    have hinsert : m.remove a b = m.insert a (inner.erase b) := by
      refine ExtTreeMap.ext_getElem? fun x => ?_
      rw [remove, ExtTreeMap.getElem?_modify, ExtTreeMap.getElem?_insert]
      split_ifs
      · rw [h, Option.map_some]
      · rfl
    rw [hinsert, Nested.total, total_insert, h, Option.elim_some, total_erase, lookup, h,
      Option.bind_some, Nested.total]
    omega

omit [LawfulEqOrd β] [DecidableEq β] in
theorem total_opened (m : Nested α β γ) (a : α) : (m.opened a).total f = m.total f := by
  cases h : m[a]? with
  | none =>
    have hinsert : m.opened a = m.insert a ∅ := by
      refine ExtTreeMap.ext_getElem? fun x => ?_
      rw [opened, ExtTreeMap.getElem?_insertIfNew, ExtTreeMap.getElem?_insert]
      by_cases hx : a = x
      · have hnew : a ∉ m := by rw [ExtTreeMap.mem_iff_isSome_getElem?, h]; simp
        simp [hnew]
      · simp [hx]
    rw [hinsert, Nested.total, total_insert, h]
    simp [Nested.total]
  | some inner =>
    have hin : a ∈ m := by rw [ExtTreeMap.mem_iff_isSome_getElem?, h]; rfl
    have hsame : m.opened a = m := by
      refine ExtTreeMap.ext_getElem? fun x => ?_
      rw [opened, ExtTreeMap.getElem?_insertIfNew]
      rw [if_neg]
      rintro ⟨hx, hnew⟩
      exact hnew hin
    rw [hsame]

end Nested

end Raft
