import Mathlib.Data.List.Perm.Subperm
import Raft.Easyraft.Replicas

/-!
# Paging through a collection

A caller reads a collection page by page and passes the cursor of each page on to the next, until
there is none.  The cursor is a key, and the empty text stands for none; but a key may be empty too.
-/

namespace Raft.Easyraft

open Std

variable {c keyPrefix after : Name} {s : Store} {reads : List (Store × Nat)}

/-- The keys of a collection that begin with the prefix, in order. -/
def Store.matching (s : Store) (c keyPrefix : Name) : List Name :=
  ((s.collections[c]?).elim [] (·.keys)).filter fun key => keyPrefix == "" || keyPrefix.isPrefixOf key

def Store.left (s : Store) (c keyPrefix after : Name) : List Name :=
  (s.matching c keyPrefix).filter fun key => after == "" || decide (after < key)

theorem left_pairwise (s : Store) (c keyPrefix after : Name) : (s.left c keyPrefix after).Pairwise (· < ·) := by
  refine List.Pairwise.filter _ (List.Pairwise.filter _ ?_)
  cases s.collections[c]? with
  | none => exact .nil
  | some items =>
    have hkeys : items.keys.Pairwise fun a b => compare a b = .lt := ExtTreeMap.ordered_keys
    exact hkeys.imp compareOfLessAndEq_eq_lt.mp

theorem left_empty (s : Store) (c keyPrefix : Name) : s.left c keyPrefix "" = s.matching c keyPrefix := by
  simp [Store.left]

theorem mem_left {key : Name} : key ∈ s.left c keyPrefix after ↔
    key ∈ s.matching c keyPrefix ∧ (after = "" ∨ after < key) := by
  simp [Store.left]

/-- The keys of the pages of a scan, and the cursor of the last one. -/
def pages (c keyPrefix : Name) : Name → List (Store × Nat) → List Name × Option Name
  | after, [] => ([], some after)
  | after, (s, limit) :: reads =>
    let page := s.scanKeys c ⟨keyPrefix, after, limit⟩
    if page.2 = "" then (page.1, none)
    else (page.1 ++ (pages c keyPrefix page.2 reads).1, (pages c keyPrefix page.2 reads).2)

/-- **Paging covers every key once**: keys ascend, none that stays is missed, and the pages
end. -/
structure Covers (c keyPrefix : Name) (reads : List (Store × Nat)) : Prop where
  ascending : (pages c keyPrefix "" reads).1.Pairwise (· < ·)
  complete : (pages c keyPrefix "" reads).2 = none →
    ∀ key, (∀ x ∈ reads, key ∈ x.1.matching c keyPrefix) → key ∈ (pages c keyPrefix "" reads).1
  ends : ∀ (s : Store) (limits : List Nat), (∀ limit ∈ limits, 0 < limit) →
    (s.matching c keyPrefix).length < limits.length →
      (pages c keyPrefix "" (reads ++ limits.map (s, ·))).2 = none

def CutsAtEmpty (c keyPrefix : Name) (s : Store) (limit : Nat) : Prop :=
  limit < (s.matching c keyPrefix).length ∧ ((s.matching c keyPrefix).take limit).getLastD "" = ""
  deriving Decidable

theorem scan_cases (s : Store) (c keyPrefix after : Name) {limit : Nat} (hpos : 0 < limit) :
    let keys := s.left c keyPrefix after
    keys.length ≤ limit ∧ s.scanKeys c ⟨keyPrefix, after, limit⟩ = (keys, "") ∨
      limit < keys.length ∧ ∃ last ∈ keys, (keys.take limit).getLastD "" = last ∧
        s.scanKeys c ⟨keyPrefix, after, limit⟩ = (keys.take limit, last) ∧
        (∀ key ∈ keys.take limit, key ≤ last) ∧ ∀ key ∈ keys, ¬ last < key → key ∈ keys.take limit := by
  intro keys
  have hscan : s.scanKeys c ⟨keyPrefix, after, limit⟩ = if 0 < limit ∧ limit < keys.length then
      (keys.take limit, (keys.take limit).getLastD "") else (keys, "") := by
    unfold Store.scanKeys keys Store.left Store.matching
    cases s.collections[c]? with
    | none => simp
    | some items => simp only [List.filter_filter, Option.elim_some, Bool.and_comm]
  by_cases hcut : limit < keys.length
  · right
    obtain ⟨init, last, hlast⟩ : ∃ init last, keys.take limit = init ++ [last] := by
      refine ⟨_, _, (List.dropLast_append_getLast fun hnil => ?_).symm⟩
      have hlen := congrArg List.length hnil
      rw [List.length_take, List.length_nil] at hlen
      omega
    have hsplit : keys = init ++ [last] ++ keys.drop limit := by rw [← hlast, List.take_append_drop]
    have hsorted := left_pairwise s c keyPrefix after
    change keys.Pairwise _ at hsorted
    rw [hsplit, List.pairwise_append, List.pairwise_append] at hsorted
    have hD : (keys.take limit).getLastD "" = last := by simp [hlast]
    refine ⟨hcut, last, by rw [hsplit]; simp, hD, by rw [hscan, if_pos ⟨hpos, hcut⟩, hD], fun key hkey => ?_,
      fun key hkey hno => ?_⟩
    · rw [hlast, List.mem_append, List.mem_singleton] at hkey
      rcases hkey with hkey | rfl
      · exact Std.le_of_lt (hsorted.1.2.2 key hkey last (by simp))
      · exact String.le_refl key
    · rw [hlast]
      rw [hsplit] at hkey
      exact (List.mem_append.mp hkey).resolve_right fun hkey => hno (hsorted.2.2 last (by simp) key hkey)
  · exact .inl ⟨Nat.le_of_not_lt hcut, hscan.trans (if_neg fun h => hcut h.2)⟩

theorem not_lt_empty (a : String) : ¬ a < "" := List.not_lt_nil a.toList

/-- Behind a cursor keys ascend and none is missed, nor from the beginning. -/
theorem pages_spec (hlimit : ∀ x ∈ reads, 0 < x.2)
    (hcut : after = "" → ∀ x ∈ reads.head?, ¬ CutsAtEmpty c keyPrefix x.1 x.2) :
    (pages c keyPrefix after reads).1.Pairwise (· < ·) ∧
      (∀ key ∈ (pages c keyPrefix after reads).1, after = "" ∨ after < key) ∧
      ((pages c keyPrefix after reads).2 = none → ∀ key, after = "" ∨ after < key →
        (∀ x ∈ reads, key ∈ x.1.matching c keyPrefix) → key ∈ (pages c keyPrefix after reads).1) := by
  induction reads generalizing after with
  | nil => exact ⟨.nil, nofun, nofun⟩
  | cons x reads ih =>
    obtain ⟨s, limit⟩ := x
    obtain ⟨hpos, hlimit⟩ := List.forall_mem_cons.mp hlimit
    have hsorted := left_pairwise s c keyPrefix after
    rw [pages]
    rcases scan_cases s c keyPrefix after hpos with ⟨-, hscan⟩ | ⟨hmore, last, hin, hlast, hscan, hle, hup⟩ <;>
      rw [hscan]
    · exact ⟨hsorted, fun key hkey => (mem_left.mp hkey).2, fun _ key hkey hthere =>
        mem_left.mpr ⟨(List.forall_mem_cons.mp hthere).1, hkey⟩⟩
    · have hne : last ≠ "" := by
        rintro rfl
        rcases (mem_left.mp hin).2 with rfl | hlt
        · rw [left_empty] at hmore hlast
          exact hcut rfl _ rfl ⟨hmore, hlast⟩
        · exact not_lt_empty after hlt
      obtain ⟨hrest, hbehind, hcomplete⟩ := @ih last hlimit fun hempty => absurd hempty hne
      have hbehind : ∀ key ∈ (pages c keyPrefix last reads).1, last < key := fun key hkey =>
        (hbehind key hkey).resolve_left hne
      rw [if_neg hne]
      refine ⟨List.pairwise_append.mpr ⟨hsorted.sublist (List.take_sublist ..), hrest, fun x hx y hy =>
        Std.lt_of_le_of_lt (hle x hx) (hbehind y hy)⟩, fun key hkey => ?_, fun hend key hkey hthere => ?_⟩
      · rcases List.mem_append.mp hkey with hkey | hkey
        · exact (mem_left.mp (List.mem_of_mem_take hkey)).2
        · exact (mem_left.mp hin).2.imp_right fun hlt => String.lt_trans hlt (hbehind key hkey)
      · obtain ⟨hhere, hthere⟩ := List.forall_mem_cons.mp hthere
        by_cases hbeyond : last < key
        · exact List.mem_append_right _ (hcomplete hend key (.inr hbeyond) hthere)
        · exact List.mem_append_left _ (hup key (mem_left.mpr ⟨hhere, hkey⟩) hbeyond)

theorem pages_end {limits : List Nat} (hlimit : ∀ limit ∈ limits, 0 < limit)
    (h : (s.left c keyPrefix after).length < limits.length) :
    (pages c keyPrefix after (limits.map (s, ·))).2 = none := by
  induction limits generalizing after with
  | nil => cases h
  | cons limit limits ih =>
    obtain ⟨hpos, hlimit⟩ := List.forall_mem_cons.mp hlimit
    rw [List.map_cons, pages]
    rcases scan_cases s c keyPrefix after hpos with ⟨-, hscan⟩ | ⟨-, last, hin, -, hscan, -⟩ <;> rw [hscan]
    · rfl
    · split_ifs with hend
      · rfl
      refine ih hlimit (Nat.lt_of_lt_of_le ?_ (Nat.le_of_lt_succ h))
      have hsub : (s.left c keyPrefix last).Sublist (s.left c keyPrefix after) := by
        refine List.monotone_filter_right _ fun key hkey => ?_
        have hlt : last < key := by simpa [hend] using hkey
        rcases (mem_left.mp hin).2 with rfl | hup
        · simp
        · simp [String.lt_trans hup hlt]
      refine hsub.length_le.lt_of_ne fun heq => ?_
      rw [← hsub.eq_of_length heq] at hin
      exact String.lt_irrefl last ((mem_left.mp hin).2.resolve_left hend)

theorem pages_append_end {more : List (Store × Nat)} (h : ∀ after, (pages c keyPrefix after more).2 = none) :
    (pages c keyPrefix after (reads ++ more)).2 = none := by
  induction reads generalizing after with
  | nil => exact h after
  | cons x reads ih =>
    rw [List.cons_append, pages]
    split_ifs
    · rfl
    · exact ih

/-- **Paging covers every key once exactly if** the first page is not cut behind the empty
key. -/
theorem covers_iff (c keyPrefix : Name) (s : Store) {limit : Nat} (hpos : 0 < limit) :
    (∀ reads : List (Store × Nat), (∀ x ∈ reads, 0 < x.2) → Covers c keyPrefix ((s, limit) :: reads)) ↔
      ¬ CutsAtEmpty c keyPrefix s limit := by
  constructor
  · rintro hcovers ⟨hmore, hlast⟩
    rcases scan_cases s c keyPrefix "" hpos with ⟨hall, -⟩ | ⟨-, last, -, hlast', hscan, -⟩ <;>
      rw [left_empty] at *
    · omega
    obtain rfl : last = "" := hlast'.symm.trans hlast
    have hpages : pages c keyPrefix "" [(s, limit)] = ((s.matching c keyPrefix).take limit, none) := by
      rw [pages, hscan]
      rfl
    -- what is left out was there for the one page there is
    have hall : s.matching c keyPrefix ⊆ (s.matching c keyPrefix).take limit := by
      intro key hkey
      have hseen := (hcovers [] nofun).complete (by rw [hpages]) key (by simpa using hkey)
      rwa [hpages] at hseen
    have hne : ∀ {a b : String}, a < b → a ≠ b := fun hlt heq => String.lt_irrefl _ (heq ▸ hlt)
    have hlen := (List.subperm_of_subset ((left_empty s c keyPrefix ▸ left_pairwise ..).imp hne) hall).length_le
    rw [List.length_take] at hlen
    omega
  · intro hcut reads hlimit
    have hfirst : ("" : Name) = "" → ∀ x ∈ ((s, limit) :: reads).head?, ¬ CutsAtEmpty c keyPrefix x.1 x.2 := by
      rintro - x hx
      rwa [← Option.some.inj hx]
    obtain ⟨hsorted, -, hcomplete⟩ := pages_spec (List.forall_mem_cons.mpr ⟨hpos, hlimit⟩) hfirst
    refine ⟨hsorted, fun hend key => hcomplete hend key (.inl rfl), fun s' limits hlimits hlen => ?_⟩
    exact pages_append_end fun after => pages_end hlimits ((List.length_filter_le ..).trans_lt hlen)

def unnamed : Store :=
  .after jobs [⟨1, some (.single (.on .upsert ⟨"jobs", ""⟩ [0x31] ""))⟩,
    ⟨2, some (.single (.on .upsert ⟨"jobs", "a"⟩ [0x32] ""))⟩]

/-- A page of two keys shows both. -/
theorem covers_unnamed : Covers "jobs" "" [(unnamed, 2)] :=
  (covers_iff "jobs" "" unnamed (by decide)).mpr (by decide +kernel) [] nofun

/-- A page of one key shows the empty key and no cursor: the scan ends, and the other job is missed. -/
theorem unnamed_hides_next :
    pages "jobs" "" "" [(unnamed, 1)] = ([""], none) ∧ "a" ∈ unnamed.matching "jobs" "" ∧
      ¬ Covers "jobs" "" [(unnamed, 1)] := by
  have hpages : pages "jobs" "" "" [(unnamed, 1)] = ([""], none) := by decide +kernel
  have hthere : "a" ∈ unnamed.matching "jobs" "" := by decide +kernel
  refine ⟨hpages, hthere, fun hcovers => ?_⟩
  have hseen := hcovers.complete (by rw [hpages]) "a" (by simpa using hthere)
  rw [hpages] at hseen
  exact absurd hseen (by decide)

end Raft.Easyraft
