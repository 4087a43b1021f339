import Mathlib.Data.List.Basic

/-!
# Linked sequences

Items carry a tag, and a relation says behind which tag an item may stand.  A sequence
is linked when every item stands behind the tag of the one before it.  If a position
and a tag leave no choice of what stands there and behind which tag, two linked
sequences that agree in the tag at one position agree all the way down.

## Main definitions

* `Linked`: every item stands behind the tag of the one before it.
* `Linked.Joint`: the places where a sequence is joined.

## Main results

* `Linked.append_iff`: cutting and joining.
* `Linked.agree`: agreement at one position goes all the way down.
-/

variable {α κ : Type*}

/-- Every item stands behind the tag of the one before it, and the first one behind
`t`. -/
def Linked (tag : α → κ) (R : κ → α → Prop) : κ → List α → Prop
  | _, [] => True
  | t, a :: as => R t a ∧ Linked tag R (tag a) as

namespace Linked

variable {tag : α → κ} {R R' : κ → α → Prop} {t u : κ} {as bs : List α} {a : α}

/-- The tag behind which a next item would stand. -/
def lastTag (tag : α → κ) (t : κ) (as : List α) : κ := (as.getLast?.map tag).getD t

@[simp] theorem lastTag_nil : lastTag tag t [] = t := rfl

@[simp] theorem lastTag_cons : lastTag tag t (a :: as) = lastTag tag (tag a) as := by
  cases as with
  | nil => rfl
  | cons b bs =>
    rfl

@[simp] theorem lastTag_append :
    lastTag tag t (as ++ bs) = lastTag tag (lastTag tag t as) bs := by
  induction as generalizing t with
  | nil => rfl
  | cons a as ih => rw [List.cons_append, lastTag_cons, lastTag_cons, ih]

theorem lastTag_take_succ {i : Nat} (h : as[i]? = some a) :
    lastTag tag t (as.take (i + 1)) = tag a := by
  rw [List.take_add_one, h, lastTag_append]
  rfl

theorem append_iff : Linked tag R t (as ++ bs) ↔
    Linked tag R t as ∧ Linked tag R (lastTag tag t as) bs := by
  induction as generalizing t with
  | nil => simp [Linked]
  | cons a as ih => rw [List.cons_append, Linked, Linked, ih, lastTag_cons, and_assoc]

theorem take (h : Linked tag R t as) (k : Nat) : Linked tag R t (as.take k) := by
  rw [← List.take_append_drop k as, append_iff] at h
  exact h.1

theorem drop (h : Linked tag R t as) (k : Nat) :
    Linked tag R (lastTag tag t (as.take k)) (as.drop k) := by
  rw [← List.take_append_drop k as, append_iff] at h
  exact h.2

theorem mono (hle : ∀ t, ∀ a ∈ as, R t a → R' t a) (h : Linked tag R t as) :
    Linked tag R' t as := by
  induction as generalizing t with
  | nil => exact trivial
  | cons a as ih =>
    exact ⟨hle t a (List.mem_cons_self ..) h.1,
      ih (fun t b hb => hle t b (List.mem_cons_of_mem _ hb)) h.2⟩

theorem map {f : α → α} (htag : ∀ a, tag (f a) = tag a) (hf : ∀ t a, R t a → R' t (f a))
    (h : Linked tag R t as) : Linked tag R' t (as.map f) := by
  induction as generalizing t with
  | nil => exact trivial
  | cons a as ih =>
    refine ⟨hf t a h.1, ?_⟩
    rw [htag]
    exact ih h.2

/-- Somewhere in the sequence `a` stands behind the tag `u`. -/
def Joint (tag : α → κ) (t : κ) (as : List α) (u : κ) (a : α) : Prop :=
  ∃ i, as[i]? = some a ∧ lastTag tag t (as.take i) = u

theorem iff_joint : Linked tag R t as ↔ ∀ u a, Joint tag t as u a → R u a := by
  induction as generalizing t with
  | nil => simp [Linked, Joint]
  | cons b bs ih =>
    rw [Linked, ih]
    constructor
    · rintro ⟨hb, hbs⟩ u a ⟨i, hi, hu⟩
      cases i with
      | zero =>
        obtain rfl : b = a := by simpa using hi
        obtain rfl : t = u := by simpa using hu
        exact hb
      | succ i => exact hbs u a ⟨i, by simpa using hi, by simpa using hu⟩
    · intro h
      refine ⟨h t b ⟨0, rfl, rfl⟩, ?_⟩
      rintro u a ⟨i, hi, hu⟩
      exact h u a ⟨i + 1, by simpa using hi, by simpa using hu⟩

theorem joints (tag : α → κ) (t : κ) (as : List α) : Linked tag (Joint tag t as) t as :=
  iff_joint.mpr fun _ _ h => h

theorem Joint.mem (h : Joint tag t as u a) : a ∈ as := by
  obtain ⟨i, hi, -⟩ := h
  exact List.mem_of_getElem? hi

/-- **Agreement goes all the way down** where an item leaves no choice of what it stands
behind. -/
theorem agree {S : α → α → Prop} (has : Linked tag R t as) (hbs : Linked tag R' t bs)
    (hunique : ∀ (i : Nat) a b u u', as[i]? = some a → bs[i]? = some b → R u a → R' u' b →
      tag a = tag b → u = u' ∧ S a b) {i : Nat} {b : α} (ha : as[i]? = some a)
    (hb : bs[i]? = some b) (htag : tag a = tag b) :
    ∀ j ≤ i, ∃ a' b', as[j]? = some a' ∧ bs[j]? = some b' ∧ tag a' = tag b' ∧ S a' b' := by
  -- The link at a position carries the agreement one position further down.
  have hlink : ∀ (i : Nat) a b, as[i]? = some a → bs[i]? = some b → tag a = tag b →
      lastTag tag t (as.take i) = lastTag tag t (bs.take i) ∧ S a b := fun i a b ha hb htag =>
    hunique i a b _ _ ha hb (iff_joint.mp has _ a ⟨i, ha, rfl⟩) (iff_joint.mp hbs _ b ⟨i, hb, rfl⟩) htag
  induction i generalizing a b with
  | zero =>
    intro j hj
    obtain rfl := Nat.le_zero.mp hj
    exact ⟨a, b, ha, hb, htag, (hlink 0 a b ha hb htag).2⟩
  | succ i ih =>
    intro j hj
    rcases Nat.lt_or_eq_of_le hj with hlt | rfl
    · have hia : i < as.length := Nat.lt_of_succ_lt (List.getElem?_eq_some_iff.mp ha).1
      have hib : i < bs.length := Nat.lt_of_succ_lt (List.getElem?_eq_some_iff.mp hb).1
      have hprev := (hlink (i + 1) a b ha hb htag).1
      rw [lastTag_take_succ (List.getElem?_eq_getElem hia),
        lastTag_take_succ (List.getElem?_eq_getElem hib)] at hprev
      exact ih (List.getElem?_eq_getElem hia) (List.getElem?_eq_getElem hib) hprev j
        (Nat.lt_succ_iff.mp hlt)
    · exact ⟨a, b, ha, hb, htag, (hlink (i + 1) a b ha hb htag).2⟩

end Linked
