import Mathlib.Data.List.Basic

/-!
# Waiting for a level with one signal

A level is raised by some goroutines and waited for by others.  Who raises it then leaves a
signal, for which there is one place; who waits looks at the level, parks if it is too low,
and looks again after it has taken the signal.  Anything may happen in between.

A signal wakes one waiter.  If several are parked, somebody may stay parked for good; with
at most one parked at a time a signal is never taken from the waiter it is owed to.

## Main definitions

* `Signal.Board`: the level, the place for the signal, who owes one, and where the waiters are.
* `Signal.Board.step`: what can happen.
* `Signal.Board.Pending`: a signal is there or owed.
* `Signal.Board.Alone`: whoever parks finds nobody parked.

## Main results

* `Signal.Board.Steady.step`: while waiters park alone, one that has been reached is owed a signal.
* `Signal.Board.Kept.run`: and it stays owed until that waiter moves itself.
-/

namespace Signal

variable {σ ω : Type}

inductive Phase
  | away
  | checking (goal : Nat)
  | parked (goal : Nat)
  deriving DecidableEq, Repr

def Phase.isParked : Phase → Bool
  | parked _ => true
  | _ => false

structure Board (σ ω : Type) where
  level : Nat
  signal : Bool
  owing : σ → Bool
  phase : ω → Phase

/-- The steps of raisers and waiters. -/
inductive Move (σ ω : Type)
  | raise (s : σ) (level : Nat)
  | send (s : σ)
  | arrive (w : ω) (goal : Nat)
  | check (w : ω)
  | take (w : ω)
  | leave (w : ω)
  deriving DecidableEq, Repr

def Move.waiter : Move σ ω → Option ω
  | raise _ _ => none
  | send _ => none
  | arrive w _ => some w
  | check w => some w
  | take w => some w
  | leave w => some w

namespace Board

def place [DecidableEq ω] (b : Board σ ω) (w : ω) (p : Phase) : Board σ ω :=
  { b with phase := fun w' => if w' = w then p else b.phase w' }

variable [DecidableEq σ] [DecidableEq ω] {ms : List (Move σ ω)}

/-- **One step**.  A signal that finds the place taken is dropped. -/
def step (b : Board σ ω) : Move σ ω → Board σ ω
  | .raise s level =>
    if b.owing s then b
    else { b with
      level := level
      owing := fun s' => if s' = s then true else b.owing s' }
  | .send s =>
    if b.owing s then { b with
      signal := true
      owing := fun s' => if s' = s then false else b.owing s' }
    else b
  | .arrive w goal => if b.phase w = .away then b.place w (.checking goal) else b
  | .check w =>
    match b.phase w with
    | .checking goal => if goal ≤ b.level then b.place w .away else b.place w (.parked goal)
    | _ => b
  | .take w =>
    match b.phase w with
    | .parked goal => if b.signal then { b.place w (.checking goal) with signal := false } else b
    | _ => b
  | .leave w => if (b.phase w).isParked then b.place w .away else b

def run (b : Board σ ω) (ms : List (Move σ ω)) : Board σ ω := ms.foldl step b

/-- A signal is there, or a raiser owes one. -/
def Pending (b : Board σ ω) : Prop := b.signal = true ∨ ∃ s, b.owing s = true

def Parked (b : Board σ ω) (w : ω) : Prop := ∃ goal, b.phase w = .parked goal

def Reached (b : Board σ ω) (w : ω) : Prop := ∃ goal, b.phase w = .parked goal ∧ goal ≤ b.level

def Alone (b : Board σ ω) (m : Move σ ω) : Prop :=
  ∀ w goal, m = .check w → b.phase w = .checking goal → b.level < goal → ∀ w', ¬ b.Parked w'

def AloneAlong (b : Board σ ω) : List (Move σ ω) → Prop
  | [] => True
  | m :: ms => b.Alone m ∧ (b.step m).AloneAlong ms

theorem AloneAlong.append {b : Board σ ω} {ms' : List (Move σ ω)} (h : b.AloneAlong ms)
    (h' : (b.run ms).AloneAlong ms') : b.AloneAlong (ms ++ ms') := by
  induction ms generalizing b with
  | nil => exact h'
  | cons m ms ih => exact ⟨h.1, ih h.2 h'⟩

/-- At most one waiter is parked, and if it has been reached a signal is pending. -/
structure Steady (b : Board σ ω) : Prop where
  one : ∀ w w', b.Parked w → b.Parked w' → w = w'
  served : ∀ w, b.Reached w → b.Pending

/-- A waiter is parked, alone, with a signal pending. -/
structure Kept (b : Board σ ω) (w : ω) : Prop where
  parked : b.Parked w
  only : ∀ w', b.Parked w' → w' = w
  pending : b.Pending

/-! ## What a step does -/

section Place

omit [DecidableEq σ]

variable {b : Board σ ω} {w w' : ω} {p : Phase}

@[simp] theorem place_phase : (b.place w p).phase w' = if w' = w then p else b.phase w' := rfl

@[simp] theorem place_level : (b.place w p).level = b.level := rfl

theorem place_pending : (b.place w p).Pending ↔ b.Pending := Iff.rfl

theorem place_phase_of_parked (hp : p.isParked = false) {goal : Nat}
    (h : (b.place w p).phase w' = .parked goal) : w' ≠ w ∧ b.phase w' = .parked goal := by
  rw [place_phase] at h
  split_ifs at h with heq
  · rw [h] at hp
    cases hp
  · exact ⟨heq, h⟩

end Place

variable {b : Board σ ω} {w : ω} {m : Move σ ω}

omit [DecidableEq σ] in
theorem Steady.unpark (h : b.Steady) {p : Phase} (hp : p.isParked = false) :
    (b.place w p).Steady where
  one := by
    rintro w₁ w₂ ⟨goal₁, h₁⟩ ⟨goal₂, h₂⟩
    exact h.one w₁ w₂ ⟨goal₁, (place_phase_of_parked hp h₁).2⟩
      ⟨goal₂, (place_phase_of_parked hp h₂).2⟩
  served := by
    rintro w' ⟨goal, hphase, hle⟩
    exact place_pending.mpr (h.served w' ⟨goal, (place_phase_of_parked hp hphase).2, hle⟩)

omit [DecidableEq σ] in
theorem Steady.park (hnone : ∀ w', ¬ b.Parked w') {goal : Nat} (hlt : b.level < goal) :
    (b.place w (.parked goal)).Steady where
  one := by
    have honly : ∀ w', (b.place w (.parked goal)).Parked w' → w' = w := by
      rintro w' ⟨goal', hphase⟩
      by_contra hne
      rw [place_phase, if_neg hne] at hphase
      exact hnone w' ⟨goal', hphase⟩
    intro w₁ w₂ h₁ h₂
    rw [honly w₁ h₁, honly w₂ h₂]
  served := by
    rintro w' ⟨goal', hphase, hle⟩
    rw [place_phase] at hphase
    split_ifs at hphase with heq
    · obtain rfl := Phase.parked.inj hphase
      rw [place_level] at hle
      omega
    · exact absurd ⟨goal', hphase⟩ (hnone w')

/-- **One step**: a waiter that has been reached is owed a signal, as long as waiters park
alone. -/
theorem Steady.step (h : b.Steady) (hm : b.Alone m) : (b.step m).Steady := by
  cases m with
  | raise s level =>
    rw [Board.step]
    split_ifs
    · exact h
    · exact ⟨h.one, fun w _ => .inr ⟨s, if_pos rfl⟩⟩
  | send s =>
    rw [Board.step]
    split_ifs
    · exact ⟨h.one, fun w _ => .inl rfl⟩
    · exact h
  | arrive w goal =>
    rw [Board.step]
    split_ifs
    · exact h.unpark rfl
    · exact h
  | check w =>
    rw [Board.step]
    split
    · next goal hphase =>
      split_ifs with hle
      · exact h.unpark rfl
      · exact Steady.park (hm w goal rfl hphase (by omega)) (by omega)
    · exact h
  | take w =>
    rw [Board.step]
    split
    · next goal hphase =>
      split_ifs
      · -- The one parked waiter takes the signal, and nobody is left to need it.
        have hnone : ∀ w', ¬ (b.place w (.checking goal)).Parked w' := by
          rintro w' ⟨goal', hphase'⟩
          obtain ⟨hne, hparked⟩ := place_phase_of_parked rfl hphase'
          exact hne (h.one w' w ⟨goal', hparked⟩ ⟨goal, hphase⟩)
        exact ⟨fun w₁ _ h₁ => absurd h₁ (hnone w₁),
          fun w₁ ⟨goal₁, h₁, _⟩ => absurd ⟨goal₁, h₁⟩ (hnone w₁)⟩
      · exact h
    · exact h
  | leave w =>
    rw [Board.step]
    split_ifs
    · exact h.unpark rfl
    · exact h

theorem Steady.run (h : b.Steady) (hms : b.AloneAlong ms) : (b.run ms).Steady := by
  induction ms generalizing b with
  | nil => exact h
  | cons m ms ih => exact ih (h.step hms.1) hms.2

omit [DecidableEq σ] [DecidableEq ω] in
theorem Steady.kept (h : b.Steady) (hw : b.Reached w) : b.Kept w := by
  have hparked : b.Parked w := hw.imp fun _ hgoal => hgoal.1
  exact ⟨hparked, fun w' hw' => h.one w' w hw' hparked, h.served w hw⟩

omit [DecidableEq σ] in
theorem Kept.unpark (h : b.Kept w) {w' : ω} (hne : w' ≠ w) {p : Phase} (hp : p.isParked = false) :
    (b.place w' p).Kept w := by
  obtain ⟨goal, hgoal⟩ := h.parked
  refine ⟨⟨goal, ?_⟩, ?_, place_pending.mpr h.pending⟩
  · rw [place_phase, if_neg hne.symm, hgoal]
  · rintro w'' ⟨goal', hphase⟩
    exact h.only w'' ⟨goal', (place_phase_of_parked hp hphase).2⟩

/-- **One step of anybody else** leaves the signal to the waiter. -/
theorem Kept.step (h : b.Kept w) (hm : b.Alone m) (hother : m.waiter ≠ some w) :
    (b.step m).Kept w := by
  have hnot : ∀ {w'}, w' ≠ w → ∀ goal, b.phase w' ≠ .parked goal :=
    fun hne goal hphase => hne (h.only _ ⟨goal, hphase⟩)
  cases m with
  | raise s level =>
    rw [Board.step]
    split_ifs
    · exact h
    · exact ⟨h.parked, h.only, .inr ⟨s, if_pos rfl⟩⟩
  | send s =>
    rw [Board.step]
    split_ifs
    · exact ⟨h.parked, h.only, .inl rfl⟩
    · exact h
  | arrive w' goal =>
    have hne : w' ≠ w := fun heq => hother (congrArg some heq)
    rw [Board.step]
    split_ifs
    · exact h.unpark hne rfl
    · exact h
  | check w' =>
    have hne : w' ≠ w := fun heq => hother (congrArg some heq)
    rw [Board.step]
    split
    · next goal hphase =>
      split_ifs with hle
      · exact h.unpark hne rfl
      · -- nobody parks beside another
        exact absurd h.parked (hm w' goal rfl hphase (by omega) w)
    · exact h
  | take w' =>
    have hne : w' ≠ w := fun heq => hother (congrArg some heq)
    rw [Board.step]
    split
    · next goal hphase => exact absurd hphase (hnot hne goal)
    · exact h
  | leave w' =>
    have hne : w' ≠ w := fun heq => hother (congrArg some heq)
    rw [Board.step]
    split_ifs
    · exact h.unpark hne rfl
    · exact h

theorem Kept.run (h : b.Kept w) (hms : b.AloneAlong ms) (hother : ∀ m ∈ ms, m.waiter ≠ some w) :
    (b.run ms).Kept w := by
  induction ms generalizing b with
  | nil => exact h
  | cons m ms ih =>
    exact ih (h.step hms.1 (hother m (List.mem_cons_self ..))) hms.2
      fun m' hm' => hother m' (List.mem_cons_of_mem _ hm')

end Board

end Signal
