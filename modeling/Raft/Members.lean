import Mathlib.Data.List.Basic

/-!
# Documents made of objects

A document is a list of tokens: braces, commas and colons, names, and values that are not taken
apart.  An object is written member by member, with a comma before every member but the first, and
it is read back the same way, by a reader that is handed the name of the member it is to read.

## Main definitions

* `Token`: the tokens.
* `separated`, `member`: the members of an object, as they are written.
* `readMembers`: the members of an object whose brace has been read.

## Main results

* `readMembers_separated`: what was written is read back, when every member is.
* `readMembers_forall`: what is read has what every member has.
-/

namespace Raft

/-- A token, with the values that are not taken apart. -/
inductive Token (α : Type)
  | obj
  | close
  | comma
  | colon
  | name (s : String)
  | leaf (a : α)
  deriving DecidableEq

namespace Token

variable {α β : Type}

def separated : List (List (Token α)) → List (Token α)
  | [] => []
  | m :: ms => m ++ ms.flatMap (comma :: ·)

def member (s : String) (value : List (Token α)) : List (Token α) := name s :: colon :: value

abbrev Reader (α β : Type) := List (Token α) → Except String (β × List (Token α))

def readRest (value : String → Reader α β) : Nat → Reader α (List (String × β))
  | 0, _ => .error "unexpected end of JSON input"
  | _ + 1, close :: ts => .ok ([], ts)
  | n + 1, comma :: name s :: colon :: ts => do
    let (b, ts) ← value s ts
    let (ms, ts) ← readRest value n ts
    return ((s, b) :: ms, ts)
  | _ + 1, _ => .error "invalid character after object key:value pair"

/-- The members of an object whose brace has been read. -/
def readMembers (value : String → Reader α β) : Reader α (List (String × β))
  | close :: ts => .ok ([], ts)
  | name s :: colon :: ts => do
    let (b, rest) ← value s ts
    -- a member takes tokens, so that there are not more of them than tokens
    let (ms, rest) ← readRest value ts.length rest
    return ((s, b) :: ms, rest)
  | _ => .error "invalid character looking for beginning of object key string"

section RoundTrip

variable {value : String → Reader α β} {write : String → β → List (Token α)}

theorem separated_append {ms ms' : List (List (Token α))} (h : ms' ≠ []) :
    separated (ms ++ ms') = separated ms ++ (if ms = [] then [] else [comma]) ++ separated ms' := by
  obtain ⟨m', rest, rfl⟩ := List.exists_cons_of_ne_nil h
  cases ms with
  | nil | cons m ms => simp [separated]

theorem read_member {more : Reader α (List (String × β))} {s : String} {b : β}
    {ts ts' rest : List (Token α)} {ms : List (String × β)} (hb : value s ts = .ok (b, ts'))
    (hms : more ts' = .ok (ms, rest)) :
    (do
      let (b, ts) ← value s ts
      let (ms, ts) ← more ts
      return ((s, b) :: ms, ts)) = Except.ok ((s, b) :: ms, rest) := by
  rw [hb]
  change (do
    let (ms, ts) ← more ts'
    return ((s, b) :: ms, ts)) = _
  rw [hms]
  rfl

theorem readRest_flatMap (ms : List (String × β))
    (h : ∀ m ∈ ms, ∀ rest, value m.1 (write m.1 m.2 ++ rest) = .ok (m.2, rest)) (rest : List (Token α))
    {n : Nat} (hn : ms.length < n) :
    readRest value n ((ms.map fun m => member m.1 (write m.1 m.2)).flatMap (comma :: ·) ++ close :: rest) =
      .ok (ms, rest) := by
  induction ms generalizing n with
  | nil =>
    obtain ⟨n, rfl⟩ := Nat.exists_eq_succ_of_ne_zero (Nat.ne_of_gt hn)
    rfl
  | cons m ms ih =>
    obtain ⟨n, rfl⟩ := Nat.exists_eq_succ_of_ne_zero (Nat.ne_of_gt (Nat.zero_lt_of_lt hn))
    have hrest := ih (fun m' hm' => h m' (List.mem_cons_of_mem _ hm')) (n := n)
      (by rw [List.length_cons] at hn; omega)
    rw [List.map_cons, List.flatMap_cons, List.append_assoc, member]
    exact read_member (h m List.mem_cons_self _) hrest

theorem length_flatMap_members (write : String → β → List (Token α)) (ms : List (String × β)) :
    ms.length ≤ ((ms.map fun m => member m.1 (write m.1 m.2)).flatMap (comma :: ·)).length := by
  induction ms with
  | nil => simp
  | cons m ms ih =>
    rw [List.map_cons, List.flatMap_cons, List.length_append, List.length_cons, List.length_cons]
    omega

/-- **The members of an object are read back**, when the value of each of them is. -/
theorem readMembers_separated (value : String → Reader α β) (write : String → β → List (Token α))
    (ms : List (String × β))
    (h : ∀ m ∈ ms, ∀ rest, value m.1 (write m.1 m.2 ++ rest) = .ok (m.2, rest)) (rest : List (Token α)) :
    readMembers value (separated (ms.map fun m => member m.1 (write m.1 m.2)) ++ close :: rest) =
      .ok (ms, rest) := by
  cases ms with
  | nil => rfl
  | cons m ms =>
    rw [List.map_cons, separated, List.append_assoc, member]
    set after := (ms.map fun m => member m.1 (write m.1 m.2)).flatMap (comma :: ·) ++ close :: rest
      with hafter
    have hlen : ms.length < (write m.1 m.2 ++ after).length := by
      have hmembers := length_flatMap_members write ms
      rw [List.length_append, hafter, List.length_append, List.length_cons]
      omega
    exact read_member (h m List.mem_cons_self _)
      (readRest_flatMap ms (fun m' hm' => h m' (List.mem_cons_of_mem _ hm')) rest hlen)

end RoundTrip

section Sound

variable {value : String → Reader α β} {P : String → β → Prop} {Q : Token α → Prop}

/-- A reader of one member: what it makes of tokens with `Q` has `P`. -/
def Reads (value : String → Reader α β) (P : String → β → Prop) (Q : Token α → Prop) : Prop :=
  ∀ (s : String) (ts : List (Token α)) (b : β) (rest : List (Token α)), (∀ t ∈ ts, Q t) →
    value s ts = .ok (b, rest) → P s b ∧ ∀ t ∈ rest, Q t

theorem Reads.member (h : Reads value P Q) {more : Reader α (List (String × β))}
    (hmore : ∀ {ts ms rest}, (∀ t ∈ ts, Q t) → more ts = .ok (ms, rest) →
      (∀ m ∈ ms, P m.1 m.2) ∧ ∀ t ∈ rest, Q t)
    {s : String} {ts rest : List (Token α)} {ms : List (String × β)} (hts : ∀ t ∈ ts, Q t)
    (hread : (do
      let (b, ts) ← value s ts
      let (ms, ts) ← more ts
      return ((s, b) :: ms, ts)) = Except.ok (ms, rest)) :
    (∀ m ∈ ms, P m.1 m.2) ∧ ∀ t ∈ rest, Q t := by
  cases hb : value s ts with
  | error e =>
    rw [hb] at hread
    cases hread
  | ok r =>
    obtain ⟨b, ts₁⟩ := r
    obtain ⟨hP, hts₁⟩ := h s ts b ts₁ hts hb
    cases hms : more ts₁ with
    | error e => simp [hb, hms, bind, Except.bind] at hread
    | ok r =>
      obtain ⟨hall, hrest⟩ := hmore hts₁ hms
      simp only [hb, hms, bind, Except.bind, pure, Except.pure, Except.ok.injEq, Prod.mk.injEq] at hread
      obtain ⟨rfl, rfl⟩ := hread
      exact ⟨List.forall_mem_cons.mpr ⟨hP, hall⟩, hrest⟩

theorem readRest_forall (h : Reads value P Q) {n : Nat} {ts rest : List (Token α)} {ms : List (String × β)}
    (hts : ∀ t ∈ ts, Q t) (hread : readRest value n ts = .ok (ms, rest)) :
    (∀ m ∈ ms, P m.1 m.2) ∧ ∀ t ∈ rest, Q t := by
  induction n generalizing ts ms rest with
  | zero => cases hread
  | succ n ih =>
    unfold readRest at hread
    split at hread
    · cases hread
    · rename_i ts _
      cases hread
      exact ⟨by simp, fun t ht => hts t (List.mem_cons_of_mem _ ht)⟩
    · rename_i n' s ts heq
      obtain rfl := Nat.succ.inj heq
      exact h.member ih (fun t ht => hts t (by simp [ht])) hread
    · cases hread

/-- **What is read of an object has what its members have.** -/
theorem readMembers_forall (h : Reads value P Q) {ts rest : List (Token α)} {ms : List (String × β)}
    (hts : ∀ t ∈ ts, Q t) (hread : readMembers value ts = .ok (ms, rest)) :
    (∀ m ∈ ms, P m.1 m.2) ∧ ∀ t ∈ rest, Q t := by
  unfold readMembers at hread
  split at hread
  · rename_i ts
    cases hread
    exact ⟨by simp, fun t ht => hts t (List.mem_cons_of_mem _ ht)⟩
  · rename_i s ts
    exact h.member (readRest_forall h) (fun t ht => hts t (by simp [ht])) hread
  · cases hread

end Sound

end Token

end Raft
