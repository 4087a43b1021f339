import Raft.Signal

/-!
# Waking the callers that wait for an index

A read that was given an index waits until the state machine has applied it.  The callers
look at `atomicLastApplied` and, while it is too low, wait on `applyAdvancedCh`, a channel
with one place that all callers share.  The event loop and the apply loop move the counter;
each stores the new index and then sends without waiting for room.

This is the pattern of `Signal`, and its limit is the limit here: while callers wait one at
a time, none is passed over.
-/

namespace Raft

namespace Reads

/-- The goroutines that move the counter. -/
inductive Loop
  | eventLoop
  | applyLoop
  deriving DecidableEq, Repr

/-- The loops' counters and the board: its level is `atomicLastApplied`, its signal the one
place of `applyAdvancedCh`. -/
structure Applied (ω : Type) where
  lastApplied : Nat
  localLastApplied : Nat
  board : Signal.Board Loop ω

/-- What the loops and the callers do, each store and each send on its own. -/
inductive Event (ω : Type)
  | applyResult (index : Nat)
  | loopSend
  | installed (index : Nat)
  | applied (index : Nat)
  | restore (index : Nat)
  | restoreSend
  | waitApplied (w : ω) (index : Nat)
  | check (w : ω)
  | receive (w : ω)
  | cancel (w : ω)
  deriving DecidableEq, Repr

def Event.caller {ω : Type} : Event ω → Option ω
  | waitApplied w _ => some w
  | check w => some w
  | receive w => some w
  | cancel w => some w
  | _ => none

namespace Applied

variable {ω : Type} [DecidableEq ω] {a : Applied ω}

def start (base : Nat) : Applied ω := ⟨base, base, ⟨base, false, fun _ => false, fun _ => .away⟩⟩

/-- What an event does to the board.  A loop that has stored sends before anything else. -/
def moves (a : Applied ω) : Event ω → List (Signal.Move Loop ω)
  | .applyResult index =>
    if a.board.owing .eventLoop = false ∧ a.lastApplied < index then [.raise .eventLoop index] else []
  | .loopSend => [.send .eventLoop]
  | .restore index =>
    if a.board.owing .applyLoop = false ∧ a.localLastApplied < index then
      [.raise .applyLoop index]
    else []
  | .restoreSend => [.send .applyLoop]
  | .waitApplied w index => [.arrive w index]
  | .check w => [.check w]
  | .receive w => [.take w]
  | .cancel w => [.leave w]
  | .installed _ => []
  | .applied _ => []

/-- **One event.** -/
def step (a : Applied ω) (e : Event ω) : Applied ω :=
  let board := a.board.run (a.moves e)
  match e with
  | .applyResult index =>
    if a.board.owing .eventLoop = false ∧ a.lastApplied < index then
      { a with
        lastApplied := index
        board := board }
    else a
  | .installed index =>
    -- a snapshot has been taken over; the store is left to the apply loop
    if a.board.owing .eventLoop = false ∧ a.lastApplied < index then
      { a with lastApplied := index }
    else a
  | .applied index => { a with localLastApplied := index }
  | .restore index =>
    if a.board.owing .applyLoop = false ∧ a.localLastApplied < index then
      { a with
        localLastApplied := index
        board := board }
    else a
  | _ => { a with board := board }

def run (a : Applied ω) (es : List (Event ω)) : Applied ω := es.foldl step a

def SignalComing (a : Applied ω) : Prop := a.board.Pending

def Reached (a : Applied ω) (w : ω) : Prop := a.board.Reached w

def Alone (a : Applied ω) (e : Event ω) : Prop :=
  ∀ w index, e = .check w → a.board.phase w = .checking index → a.board.level < index →
    ∀ w', ¬ a.board.Parked w'

def AloneAlong (a : Applied ω) : List (Event ω) → Prop
  | [] => True
  | e :: es => a.Alone e ∧ (a.step e).AloneAlong es

def trace (a : Applied ω) : List (Event ω) → List (Signal.Move Loop ω)
  | [] => []
  | e :: es => a.moves e ++ (a.step e).trace es

/-! ## The board follows the rules of signals -/

theorem step_board (a : Applied ω) (e : Event ω) : (a.step e).board = a.board.run (a.moves e) := by
  cases e with
  | applyResult index | restore index =>
    simp only [step]
    split_ifs with h
    · rfl
    · simp [moves, h, Signal.Board.run]
  | installed index =>
    simp only [step]
    split_ifs <;> rfl
  | _ => rfl

theorem run_board (a : Applied ω) (es : List (Event ω)) :
    (a.run es).board = a.board.run (a.trace es) := by
  induction es generalizing a with
  | nil => rfl
  | cons e es ih =>
    have hrest := ih (a.step e)
    rw [step_board] at hrest
    rw [trace, Signal.Board.run, List.foldl_append]
    exact hrest

theorem Alone.moves {e : Event ω} (h : a.Alone e) : a.board.AloneAlong (a.moves e) := by
  have hquiet : ∀ m : Signal.Move Loop ω, (∀ w, m ≠ .check w) → a.board.Alone m :=
    fun m hm w _ heq => absurd heq (hm w)
  cases e with
  | check w => exact ⟨fun w' index heq => h w' index (by cases heq; rfl), trivial⟩
  | applyResult index | restore index =>
    simp only [Applied.moves]
    split_ifs
    · exact ⟨hquiet _ fun _ => nofun, trivial⟩
    · trivial
  | installed index | applied index => trivial
  | loopSend | restoreSend | waitApplied w index | receive w | cancel w =>
    exact ⟨hquiet _ fun _ => nofun, trivial⟩

theorem AloneAlong.trace {es : List (Event ω)} (h : a.AloneAlong es) :
    a.board.AloneAlong (a.trace es) := by
  induction es generalizing a with
  | nil => trivial
  | cons e es ih =>
    refine Signal.Board.AloneAlong.append h.1.moves ?_
    rw [← step_board]
    exact ih h.2

theorem waiter_of_mem_trace {es : List (Event ω)} {m : Signal.Move Loop ω} (h : m ∈ a.trace es)
    {w : ω} (hw : m.waiter = some w) : ∃ e ∈ es, e.caller = some w := by
  induction es generalizing a with
  | nil => cases h
  | cons e es ih =>
    rcases List.mem_append.mp h with hm | hm
    · refine ⟨e, List.mem_cons_self .., ?_⟩
      cases e with
      | applyResult index | restore index =>
        simp only [Applied.moves] at hm
        split_ifs at hm
        · obtain rfl := List.mem_singleton.mp hm
          cases hw
        · cases hm
      | installed index | applied index => cases hm
      | _ =>
        obtain rfl := List.mem_singleton.mp hm
        exact hw
    · obtain ⟨e', he', hcaller⟩ := ih hm
      exact ⟨e', List.mem_cons_of_mem _ he', hcaller⟩

omit [DecidableEq ω] in
theorem steady_start (base : Nat) : (start base : Applied ω).board.Steady where
  one := fun _ _ ⟨_, h⟩ => nomatch h
  served := fun _ ⟨_, h, _⟩ => nomatch h

/-- **No wake-up is lost while callers wait alone**: a caller whose index has been applied has
a signal coming until it moves itself, whatever the loops and other callers do. -/
theorem wakeUp_kept (base : Nat) {es : List (Event ω)} (hes : (start base).AloneAlong es) {w : ω}
    (hw : ((start base).run es).Reached w) {es' : List (Event ω)}
    (hes' : ((start base).run es).AloneAlong es') (hother : ∀ e ∈ es', e.caller ≠ some w) :
    (((start base).run es).run es').SignalComing := by
  have hsteady : ((start base).run es).board.Steady := by
    rw [run_board]
    exact (steady_start base).run hes.trace
  have hkept := (hsteady.kept hw).run hes'.trace fun m hm heq => by
    obtain ⟨e, he, hcaller⟩ := waiter_of_mem_trace hm heq
    exact hother e he hcaller
  have hpending := hkept.pending
  rw [← run_board] at hpending
  exact hpending

omit [DecidableEq ω] in
theorem alone_of_caller_idle {e : Event ω} (h : ∀ w, e ≠ .check w) : a.Alone e :=
  fun w _ heq => absurd heq (h w)

/-- The signal for index 5 survives the call of another caller, which finds the index applied. -/
theorem wakeUp_kept_one_caller :
    (((start 0 : Applied Nat).run [.waitApplied 0 5, .check 0, .applyResult 5]).run
      [.loopSend, .waitApplied 1 5, .check 1]).SignalComing := by
  have hes : (start 0 : Applied Nat).AloneAlong [.waitApplied 0 5, .check 0, .applyResult 5] := by
    refine ⟨alone_of_caller_idle fun _ => nofun, ?_, alone_of_caller_idle fun _ => nofun, trivial⟩
    rintro w index heq - - w' ⟨goal, hphase⟩
    change (if w' = 0 then Signal.Phase.checking 5 else .away) = .parked goal at hphase
    split_ifs at hphase
  have hes' : ((start 0 : Applied Nat).run [.waitApplied 0 5, .check 0, .applyResult 5]).AloneAlong
      [.loopSend, .waitApplied 1 5, .check 1] := by
    refine ⟨alone_of_caller_idle fun _ => nofun, alone_of_caller_idle fun _ => nofun, ?_, trivial⟩
    rintro w index heq hphase hlt
    obtain rfl : w = 1 := (Event.check.inj heq).symm
    obtain rfl : 5 = index := Signal.Phase.checking.inj hphase
    exact absurd hlt (by decide)
  exact wakeUp_kept 0 (w := 0) hes ⟨5, rfl, Nat.le_refl 5⟩ hes' (by decide)

/-- Two callers wait for index 5.  The first takes the signal and returns; the second waits
on, with no signal to come. -/
theorem second_caller_passed_over :
    let a := (start 0 : Applied Nat).run [.waitApplied 0 5, .waitApplied 1 5, .check 0, .check 1,
      .applyResult 5, .loopSend, .receive 0, .check 0]
    a.Reached 1 ∧ a.board.phase 0 = .away ∧ ¬ a.SignalComing := by
  refine ⟨⟨5, rfl, Nat.le_refl 5⟩, rfl, ?_⟩
  rintro (hsignal | ⟨loop, howing⟩)
  · exact absurd hsignal (by decide)
  · cases loop <;> exact absurd howing (by decide)

end Applied

end Reads

end Raft
