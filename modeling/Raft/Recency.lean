import Mathlib.Data.List.Basic
import Mathlib.Data.List.Nodup

/-!
# Bounded tables in order of last write

A table of keys and values that remembers in which order its keys were last written
and, under a positive bound, forgets the key written longest ago when a new one comes.
Reading changes nothing, so two tables that see the same writes are the same table.

## Main definitions

* `Recency`: a table, most recently written key first, with its bound.
* `get`, `put`, `setCap`, `loadFrom`: the operations.

## Main results

* `get_put_of_ne`: while there is room, a write leaves the other keys alone.
* `put_eq_self_iff`: a write that changes nothing is the last write over again.
* `loadFrom_items`: a table is rebuilt from its items.
-/

/-- Keys with their values, most recently written first.  A bound of 0 is none. -/
structure Recency (κ ν : Type) where
  items : List (κ × ν)
  bound : Nat
  nodup : (items.map Prod.fst).Nodup
  fits : 0 < bound → items.length ≤ bound
  deriving DecidableEq

namespace Recency

variable {κ ν : Type}

variable (bound : Nat)

def empty : Recency κ ν := ⟨[], bound, List.nodup_nil, fun _ => Nat.zero_le _⟩

@[ext] theorem ext {s t : Recency κ ν} (hitems : s.items = t.items) (hbound : s.bound = t.bound) :
    s = t := by
  cases s
  cases t
  cases hitems
  cases hbound
  rfl

variable (items : List (κ × ν))

def trim : List (κ × ν) :=
  if 0 < bound then items.take bound else items

theorem trim_sublist : (trim bound items).Sublist items := by
  unfold trim
  split_ifs
  · exact List.take_sublist ..
  · exact .refl _

theorem trim_length (h : 0 < bound) : (trim bound items).length ≤ bound := by
  rw [trim, if_pos h]
  exact List.length_take_le ..

def setCap (t : Recency κ ν) (bound : Nat) : Recency κ ν where
  items := trim bound t.items
  bound := bound
  nodup := t.nodup.sublist ((trim_sublist bound t.items).map _)
  fits := trim_length bound t.items

variable [DecidableEq κ] {k k' : κ} {t : Recency κ ν} {v : ν}

def get (t : Recency κ ν) (k : κ) : Option ν := (t.items.find? (·.1 = k)).map (·.2)

def without (t : Recency κ ν) (k : κ) : List (κ × ν) := t.items.filter (·.1 ≠ k)

theorem nodup_cons_without (t : Recency κ ν) (k : κ) (v : ν) :
    (((k, v) :: t.without k).map Prod.fst).Nodup := by
  rw [List.map_cons, List.nodup_cons]
  refine ⟨fun h => ?_, t.nodup.sublist (List.filter_sublist.map _)⟩
  obtain ⟨p, hp, hk⟩ := List.mem_map.mp h
  simpa [hk] using (List.mem_filter.mp hp).2

/-- Writes a key to the front; a new key pushes out the oldest when the table is full. -/
def put (t : Recency κ ν) (k : κ) (v : ν) : Recency κ ν where
  items := trim t.bound ((k, v) :: t.without k)
  bound := t.bound
  nodup := (nodup_cons_without t k v).sublist ((trim_sublist ..).map _)
  fits := trim_length t.bound _

/-- Reads records until the table is full, only the first of each key. -/
def loadItems (bound : Nat) : List (κ × ν) → List (κ × ν) → List (κ × ν)
  | acc, [] => acc
  | acc, r :: rs =>
    if 0 < bound ∧ bound ≤ acc.length then acc
    else if (acc.map Prod.fst).contains r.1 then loadItems bound acc rs
    else loadItems bound (acc ++ [r]) rs

theorem loadItems_cons (acc rs : List (κ × ν)) (r : κ × ν) : loadItems bound acc (r :: rs) =
    if 0 < bound ∧ bound ≤ acc.length then acc
    else if r.1 ∈ acc.map Prod.fst then loadItems bound acc rs
    else loadItems bound (acc ++ [r]) rs := by
  simp only [loadItems, List.contains_iff_mem]

theorem loadItems_nodup (acc rs : List (κ × ν)) (h : (acc.map Prod.fst).Nodup) :
    ((loadItems bound acc rs).map Prod.fst).Nodup := by
  induction rs generalizing acc with
  | nil => exact h
  | cons r rs ih =>
    simp only [loadItems]
    split_ifs with hfull hdup
    · exact h
    · exact ih acc h
    · refine ih _ ?_
      rw [List.map_append, List.nodup_append_comm]
      simpa using ⟨by simpa using hdup, h⟩

theorem loadItems_length (acc rs : List (κ × ν)) (h : 0 < bound) (hacc : acc.length ≤ bound) :
    (loadItems bound acc rs).length ≤ bound := by
  induction rs generalizing acc with
  | nil => exact hacc
  | cons r rs ih =>
    simp only [loadItems]
    split_ifs with hfull hdup
    · exact hacc
    · exact ih acc hacc
    · refine ih _ ?_
      rw [List.length_append, List.length_singleton]
      omega

def loadFrom (t : Recency κ ν) (records : List (κ × ν)) : Recency κ ν where
  items := loadItems t.bound [] records
  bound := t.bound
  nodup := loadItems_nodup t.bound [] records List.nodup_nil
  fits := fun h => loadItems_length t.bound [] records h (Nat.zero_le _)

def HasRoom (t : Recency κ ν) (k : κ) : Prop :=
  (t.get k).isSome ∨ t.bound = 0 ∨ t.items.length < t.bound
  deriving Decidable

omit [DecidableEq κ] in
theorem trim_prefix : trim bound items <+: items := by
  unfold trim
  split_ifs
  · exact List.take_prefix ..
  · exact List.prefix_refl _

theorem find?_of_trim {bound : Nat} {items : List (κ × ν)} {p : κ × ν}
    (h : (trim bound items).find? (·.1 = k) = some p) : items.find? (·.1 = k) = some p := by
  obtain ⟨rest, hrest⟩ := trim_prefix bound items
  rw [← hrest, List.find?_append, h, Option.some_or]

theorem find?_without (hne : k' ≠ k) :
    (t.without k).find? (·.1 = k') = t.items.find? (·.1 = k') := by
  unfold without
  rw [List.find?_filter]
  congr 1
  funext p
  by_cases hp : p.1 = k'
  · simp [hp, hne]
  · simp [hp]

theorem get_setCap_eq_some {bound : Nat} (h : (t.setCap bound).get k = some v) :
    t.get k = some v := by
  obtain ⟨p, hp, rfl⟩ := Option.map_eq_some_iff.mp h
  rw [get, find?_of_trim hp, Option.map_some]

theorem get_put_eq_some {v' : ν} (h : (t.put k v).get k' = some v') :
    k' = k ∧ v' = v ∨ t.get k' = some v' := by
  obtain ⟨p, hp, rfl⟩ := Option.map_eq_some_iff.mp h
  have hfound := find?_of_trim hp
  by_cases hk : k' = k
  · subst hk
    rw [List.find?_cons_of_pos (by simp)] at hfound
    cases hfound
    exact .inl ⟨rfl, rfl⟩
  · rw [List.find?_cons_of_neg (by simpa [eq_comm] using hk), find?_without hk] at hfound
    exact .inr (by rw [get, hfound, Option.map_some])

theorem length_without_lt (h : (t.get k).isSome) : (t.without k).length < t.items.length := by
  rw [get, Option.isSome_map, List.find?_isSome] at h
  obtain ⟨p, hp, hpk⟩ := h
  exact List.length_filter_lt_length_iff_exists.mpr ⟨p, hp, by simpa using hpk⟩

theorem trim_of_hasRoom (v : ν) (hroom : t.HasRoom k) :
    trim t.bound ((k, v) :: t.without k) = (k, v) :: t.without k := by
  unfold trim
  split_ifs with hbound
  · refine List.take_of_length_le ?_
    have hall := t.fits hbound
    have hless : (t.without k).length ≤ t.items.length := List.length_filter_le ..
    rw [List.length_cons]
    -- the key makes place for itself, nothing is bounded, or there is room
    rcases hroom with hthere | hzero | hlt
    · have := length_without_lt hthere
      omega
    · omega
    · omega
  · rfl

/-- **While there is room**, a write leaves the other keys alone. -/
theorem get_put_of_ne (v : ν) (hne : k' ≠ k) (hroom : t.HasRoom k) :
    (t.put k v).get k' = t.get k' := by
  change ((trim t.bound ((k, v) :: t.without k)).find? (·.1 = k')).map (·.2) = _
  rw [trim_of_hasRoom v hroom, List.find?_cons_of_neg (by simpa [eq_comm] using hne), find?_without hne]
  rfl

theorem get_eq_some_iff (t : Recency κ ν) : t.get k = some v ↔ (k, v) ∈ t.items := by
  rw [get, Option.map_eq_some_iff]
  constructor
  · rintro ⟨p, hp, rfl⟩
    have hkey : p.1 = k := by simpa using List.find?_some hp
    exact hkey ▸ List.mem_of_find?_eq_some hp
  · intro hmem
    obtain ⟨p, hp⟩ := Option.isSome_iff_exists.mp (List.find?_isSome.mpr
      ⟨_, hmem, decide_eq_true rfl⟩ : (t.items.find? (·.1 = k)).isSome)
    have hkey : p.1 = k := by simpa using List.find?_some hp
    exact ⟨p, hp, congrArg Prod.snd
      (List.inj_on_of_nodup_map t.nodup (List.mem_of_find?_eq_some hp) hmem hkey)⟩

omit [DecidableEq κ] in
theorem trim_items (t : Recency κ ν) : trim t.bound t.items = t.items := by
  unfold trim
  split_ifs with hbound
  · exact List.take_of_length_le (t.fits hbound)
  · rfl

theorem get_of_head (h : t.items.head? = some (k, v)) : t.get k = some v := by
  obtain ⟨rest, hitems⟩ := List.head?_eq_some_iff.mp h
  simp [get, hitems]

theorem head_put (t : Recency κ ν) (k : κ) (v : ν) : (t.put k v).items.head? = some (k, v) := by
  simp only [put, trim]
  split_ifs with hbound
  · obtain ⟨b, hb⟩ := Nat.exists_eq_succ_of_ne_zero (Nat.pos_iff_ne_zero.mp hbound)
    rw [hb]
    rfl
  · rfl

theorem put_eq_self_iff (t : Recency κ ν) (k : κ) (v : ν) :
    t.put k v = t ↔ t.items.head? = some (k, v) := by
  constructor
  · intro h
    rw [← h]
    exact head_put t k v
  · intro h
    obtain ⟨rest, hitems⟩ := List.head?_eq_some_iff.mp h
    have hfresh : ∀ p ∈ rest, p.1 ≠ k := by
      have hnodup := t.nodup
      rw [hitems, List.map_cons, List.nodup_cons] at hnodup
      intro p hp hpk
      exact hnodup.1 (List.mem_map.mpr ⟨p, hp, hpk⟩)
    have hwithout : t.without k = rest := by
      rw [without, hitems]
      simpa using hfresh
    ext1
    · change trim t.bound ((k, v) :: t.without k) = t.items
      rw [hwithout, ← hitems, trim_items]
    · rfl

theorem loadItems_of_fits (acc rs : List (κ × ν)) (hnodup : ((acc ++ rs).map Prod.fst).Nodup)
    (hfits : 0 < bound → (acc ++ rs).length ≤ bound) : loadItems bound acc rs = acc ++ rs := by
  induction rs generalizing acc with
  | nil => simp [loadItems]
  | cons r rs ih =>
    have hroom : ¬ (0 < bound ∧ bound ≤ acc.length) := by
      rintro ⟨hpos, hfull⟩
      have := hfits hpos
      rw [List.length_append, List.length_cons] at this
      omega
    have hnew : ¬ (acc.map Prod.fst).contains r.1 = true := by
      rw [List.map_append, List.map_cons, List.nodup_append] at hnodup
      rw [List.contains_iff_mem]
      exact fun hmem => hnodup.2.2 _ hmem _ List.mem_cons_self rfl
    have hmove : acc ++ [r] ++ rs = acc ++ r :: rs := by simp
    rw [loadItems, if_neg hroom, if_neg hnew, ih (acc ++ [r]) (hmove ▸ hnodup) (hmove ▸ hfits), hmove]

theorem prefix_loadItems (acc rs : List (κ × ν)) : acc <+: loadItems bound acc rs := by
  induction rs generalizing acc with
  | nil => exact List.prefix_refl _
  | cons r rs ih =>
    rw [loadItems]
    split_ifs
    · exact List.prefix_refl _
    · exact ih acc
    · exact (List.prefix_append ..).trans (ih _)

/-- The bound only cuts off what comes last. -/
theorem loadItems_prefix (acc rs : List (κ × ν)) : loadItems bound acc rs <+: loadItems 0 acc rs := by
  induction rs generalizing acc with
  | nil => exact List.prefix_refl _
  | cons r rs ih =>
    rw [loadItems]
    split_ifs with hfull hdup
    · exact prefix_loadItems 0 acc _
    · rw [loadItems, if_neg (by omega), if_pos hdup]
      exact ih acc
    · rw [loadItems, if_neg (by omega), if_neg hdup]
      exact ih _

theorem loadFrom_items (t : Recency κ ν) : (empty t.bound).loadFrom t.items = t := by
  ext1
  · exact loadItems_of_fits t.bound [] t.items t.nodup t.fits
  · rfl

end Recency
