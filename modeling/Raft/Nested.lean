import Mathlib.Data.Finset.Sort

/-!
# Maps of maps

A map whose values are maps.  An outer key may be there with nothing under it, so such a map is
known by its outer keys and by what each pair of keys leads to.

## Main definitions

* `Nested`: the map; `Nested.lookup`, `Nested.set`, `Nested.remove` work on a pair of keys.
* `Nested.opened`: the map with an outer key present.

## Main results

* `Nested.ext`: outer keys and lookups determine the map.
-/

namespace Raft

open Std

/-- A map from outer and inner keys to values. -/
abbrev Nested (α β γ : Type) [Ord α] [Ord β] := ExtTreeMap α (ExtTreeMap β γ)

namespace Nested

variable {α β γ : Type} [Ord α] [TransOrd α] [Ord β] [TransOrd β]

variable (m : Nested α β γ)

variable (a : α)

def lookup (b : β) : Option γ := m[a]?.bind (·[b]?)

/-- The map under an outer key, empty when the key is not there. -/
def inner : ExtTreeMap β γ := m[a]?.getD ∅

def set (b : β) (c : γ) : Nested α β γ :=
  m.insert a ((m.inner a).insert b c)

def remove (b : β) : Nested α β γ := m.modify a (·.erase b)

def opened : Nested α β γ := m.insertIfNew a ∅

theorem lookup_inner (b : β) : (m.inner a)[b]? = m.lookup a b := by
  unfold inner lookup
  cases m[a]? <;> simp

theorem mem_of_lookup {m : Nested α β γ} {a : α} {b : β} {c : γ} (h : m.lookup a b = some c) :
    a ∈ m := by
  obtain ⟨inner, hinner, -⟩ := Option.bind_eq_some_iff.mp h
  rw [ExtTreeMap.mem_iff_isSome_getElem?, hinner]
  rfl

theorem lookup_eq_none {m : Nested α β γ} {a : α} {b : β} (h : a ∉ m) : m.lookup a b = none :=
  Option.eq_none_iff_forall_ne_some.mpr fun _ hv => h (mem_of_lookup hv)

@[simp] theorem mem_remove (a x : α) (b : β) : x ∈ m.remove a b ↔ x ∈ m := by
  rw [remove, ExtTreeMap.mem_modify]

variable [LawfulEqOrd α]

@[simp] theorem lookup_opened (a x : α) (y : β) : (m.opened a).lookup x y = m.lookup x y := by
  rw [lookup, opened, ExtTreeMap.getElem?_insertIfNew]
  split_ifs with h
  · obtain ⟨heq, hnew⟩ := h
    obtain rfl := Std.compare_eq_iff_eq.mp heq
    rw [lookup, ExtTreeMap.getElem?_eq_none hnew]
    simp
  · rfl

@[simp] theorem mem_set (a x : α) (b : β) (c : γ) : x ∈ m.set a b c ↔ a = x ∨ x ∈ m := by
  rw [set, ExtTreeMap.mem_insert, Std.compare_eq_iff_eq]

omit [TransOrd β] in
@[simp] theorem mem_opened (a x : α) : x ∈ m.opened a ↔ a = x ∨ x ∈ m := by
  rw [opened, ExtTreeMap.mem_insertIfNew, Std.compare_eq_iff_eq]

omit [TransOrd β] in
theorem opened_of_mem {m : Nested α β γ} {a : α} (h : a ∈ m) : m.opened a = m := by
  refine ExtTreeMap.ext_getElem? fun x => ?_
  rw [opened, ExtTreeMap.getElem?_insertIfNew, if_neg fun hx => hx.2 h]

omit [TransOrd β] in
theorem mem_of_opened_keys {m : Nested α β γ} {a : α} (h : (m.opened a).keys = m.keys) : a ∈ m := by
  rw [← ExtTreeMap.mem_keys, ← h, ExtTreeMap.mem_keys, mem_opened]
  exact .inl rfl

section

variable [LawfulEqOrd β]

/-- **Outer keys and lookups determine the map.** -/
theorem ext {m m' : Nested α β γ} (hmem : ∀ x, x ∈ m ↔ x ∈ m')
    (hlookup : ∀ x y, m.lookup x y = m'.lookup x y) : m = m' := by
  refine ExtTreeMap.ext_getElem? fun x => ?_
  have hx := hmem x
  have hall := hlookup x
  simp only [ExtTreeMap.mem_iff_isSome_getElem?] at hx
  simp only [lookup] at hall
  cases h : m[x]? with
  | none =>
    cases h' : m'[x]? with
    | none => rfl
    | some inner' => simp [h, h'] at hx
  | some inner =>
    cases h' : m'[x]? with
    | none => simp [h, h'] at hx
    | some inner' =>
      rw [h, h'] at hall
      exact congrArg some (ExtTreeMap.ext_getElem? hall)

end

variable [DecidableEq α]

@[simp] theorem lookup_erase (a x : α) (y : β) :
    lookup (m.erase a) x y = if a = x then none else m.lookup x y := by
  rw [lookup, ExtTreeMap.getElem?_erase]
  simp only [Std.compare_eq_iff_eq]
  split_ifs with ha
  · rfl
  · rfl

variable [DecidableEq β] [LawfulEqOrd β]

@[simp] theorem lookup_set (a x : α) (b y : β) (c : γ) :
    (m.set a b c).lookup x y = if a = x ∧ b = y then some c else m.lookup x y := by
  rw [lookup, set, ExtTreeMap.getElem?_insert]
  simp only [Std.compare_eq_iff_eq]
  by_cases ha : a = x
  · subst ha
    rw [if_pos rfl, Option.bind_some, ExtTreeMap.getElem?_insert, lookup_inner]
    simp only [Std.compare_eq_iff_eq, true_and]
  · rw [if_neg ha, if_neg (fun h => ha h.1)]
    rfl

@[simp] theorem lookup_remove (a x : α) (b y : β) :
    (m.remove a b).lookup x y = if a = x ∧ b = y then none else m.lookup x y := by
  rw [lookup, remove, ExtTreeMap.getElem?_modify]
  simp only [Std.compare_eq_iff_eq]
  by_cases ha : a = x
  · subst ha
    rw [if_pos rfl, lookup]
    cases m[a]? with
    | none => simp
    | some inner =>
      rw [Option.map_some, Option.bind_some, ExtTreeMap.getElem?_erase]
      simp only [Std.compare_eq_iff_eq, true_and, Option.bind_some]
  · rw [if_neg ha, if_neg (fun h => ha h.1)]
    rfl

end Nested

end Raft
