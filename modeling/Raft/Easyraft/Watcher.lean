import Mathlib.Data.List.Chain
import Mathlib.Data.List.Pairwise
import Mathlib.Logic.Function.Basic

/-!
# Watchers

A watcher hands the changes of a collection to the channels of its subscribers and never waits for
them.  A subscriber that loses an event because its channel is full is owed a gap, an event without
a key that comes before the next one it is sent.  The store reports its own losses as gaps as well.

A gap of the store names no key, so it goes to those who subscribed to all keys: whoever subscribed
to one is not told that an event may have been lost.

## Main results

* `Subscription.Kept.deliver`: what a delivery keeps for one subscriber.
* `Watcher.informed_run`: while the store's gaps find no subscriber to a single key, losses are told.
-/

namespace Raft.Easyraft

variable {α : Type}

structure WatchEvent (α : Type) where
  seq : Nat
  key : String
  value : Option α
  deleted : Bool
  gap : Bool
  deriving DecidableEq, Repr

/-- What happens to a subscriber: an event is put into its channel or lost at its full channel, or
the store reports that it has lost some. -/
inductive Happening (α : Type)
  | sent (ev : WatchEvent α)
  | lost (ev : WatchEvent α)
  | missed
  deriving DecidableEq, Repr

namespace Happening

def isLoss : Happening α → Bool
  | sent _ => false
  | lost _ | missed => true

def event? : Happening α → Option (WatchEvent α)
  | sent ev => some ev
  | lost _ | missed => none

end Happening

def subscriberQueueDepth : Nat := 64

/-- A subscription with its channel, oldest event first; and beside it what its subscriber has
received and what has happened. -/
structure Subscription (α : Type) where
  id : Nat
  key : String
  ch : List (WatchEvent α)
  gapOwed : Bool
  received : List (WatchEvent α)
  log : List (Happening α)

namespace Subscription

variable (s : Subscription α)

/-- A send that does not wait. -/
def trySend (ev : WatchEvent α) : Option (Subscription α) :=
  if s.ch.length < subscriberQueueDepth then
    some { s with ch := s.ch ++ [ev], log := s.log ++ [.sent ev] }
  else none

/-- The subscriber takes up to `k` events. -/
def receive (k : Nat) : Subscription α :=
  { s with ch := s.ch.drop k, received := s.received ++ s.ch.take k }

def offer (ev : WatchEvent α) : Subscription α :=
  (s.trySend ev).getD { s with gapOwed := true, log := s.log ++ [.lost ev] }

/-- Offers an event, after the gap that is owed; between the two the subscriber may take some. -/
def deliver (between : Nat) (ev : WatchEvent α) : Subscription α :=
  if s.gapOwed then
    match s.trySend ⟨ev.seq, "", none, false, true⟩ with
    | some s => ({ s with gapOwed := false }.receive between).offer ev
    -- still full
    | none => { s with log := s.log ++ [.lost ev] }
  else s.offer ev

/-- A gap reported by the store: an event that was for this subscriber may have been lost. -/
def miss (ev : WatchEvent α) : Subscription α :=
  if ev.gap then { s with log := s.log ++ [.missed] } else s

end Subscription

structure Watcher (α : Type) where
  seq : Nat
  all : List (Subscription α)
  byKey : String → List (Subscription α)
  next : Nat

inductive WatcherEvent (α : Type)
  | subscribe (key : String)
  | unsubscribe (key : String) (id : Nat)
  | receive (id k : Nat)
  | notify (ev : WatchEvent α) (between : Nat → Nat)

namespace Watcher

open Function (update update_apply)

def newWatcher : Watcher α := ⟨0, [], fun _ => [], 0⟩

variable (w : Watcher α)

def subscribe (key : String) : Watcher α :=
  let sub : Subscription α := ⟨w.next, key, [], false, [], []⟩
  if key = "" then { w with all := w.all ++ [sub], next := w.next + 1 }
  else { w with byKey := update w.byKey key (w.byKey key ++ [sub]), next := w.next + 1 }

def unsubscribe (key : String) (id : Nat) : Watcher α :=
  if key = "" then { w with all := w.all.filter (·.id ≠ id) }
  else { w with byKey := update w.byKey key ((w.byKey key).filter (·.id ≠ id)) }

def receive (id k : Nat) : Watcher α :=
  let take := fun s : Subscription α => if s.id = id then s.receive k else s
  { w with all := w.all.map take, byKey := fun key => (w.byKey key).map take }

/-- Hands an event to all who subscribed to its key or to all keys. -/
def notifyEvent (ev : WatchEvent α) (between : Nat → Nat) : Watcher α :=
  let ev := { ev with seq := w.seq + 1 }
  let deliver := fun s : Subscription α => (s.miss ev).deliver (between s.id) ev
  { w with
    seq := w.seq + 1
    all := w.all.map deliver
    byKey := fun key => (w.byKey key).map fun s =>
      if ev.key ≠ "" ∧ key = ev.key then deliver s else s.miss ev }

def step : WatcherEvent α → Watcher α
  | .subscribe key => w.subscribe key
  | .unsubscribe key id => w.unsubscribe key id
  | .receive id k => w.receive id k
  | .notify ev between => w.notifyEvent ev between

def run (events : List (WatcherEvent α)) : Watcher α := events.foldl step w

def Registered (s : Subscription α) : Prop := s ∈ w.all ∨ ∃ key, s ∈ w.byKey key

/-- When the store reports a gap, whoever subscribed to a single key is owed one already, or the gap
names the key. -/
def Reaches : WatcherEvent α → Prop
  | .notify ev _ => ev.gap = true → ∀ key, ∀ s ∈ w.byKey key,
      ev.key ≠ "" ∧ key = ev.key ∨ s.gapOwed = true
  | _ => True

def Along (P : Watcher α → WatcherEvent α → Prop) : Watcher α → List (WatcherEvent α) → Prop
  | _, [] => True
  | w, event :: events => P w event ∧ Along P (w.step event) events

end Watcher

namespace Subscription

/-- The subscriber gets what was sent, in order and with numbers that do not decrease; and behind a
loss comes another one or a gap. -/
structure Informed (s : Subscription α) : Prop where
  order : s.received ++ s.ch = s.log.filterMap Happening.event?
  numbers : (s.received ++ s.ch).Pairwise (·.seq ≤ ·.seq)
  told : s.log.IsChain fun h h' => h.isLoss = true → h'.isLoss = true ∨ ∃ ev ∈ h'.event?, ev.gap = true

/-- Numbers have not passed `seq`, and a gap is owed where the last thing that happened was a loss, or
else the event at hand is one. -/
structure Kept (s : Subscription α) (seq : Nat) (gap : Bool) : Prop extends s.Informed where
  bound : ∀ ev ∈ s.received ++ s.ch, ev.seq ≤ seq
  owed : ∀ h ∈ s.log.getLast?, h.isLoss = true → s.gapOwed = true ∨ gap = true

variable {s s' : Subscription α} {seq : Nat} {gap : Bool} {ev : WatchEvent α}

namespace Kept

theorem mono (h : s.Kept seq gap) {seq' : Nat} (hle : seq ≤ seq') : s.Kept seq' gap :=
  { h with bound := fun ev hev => (h.bound ev hev).trans hle }

theorem receive (h : s.Kept seq gap) (k : Nat) : (s.receive k).Kept seq gap := by
  have hall : (s.receive k).received ++ (s.receive k).ch = s.received ++ s.ch := by
    simp [Subscription.receive, List.append_assoc]
  exact ⟨⟨hall.trans h.order, hall ▸ h.numbers, h.told⟩, fun ev hev => h.bound ev (hall ▸ hev), h.owed⟩

/-- A loss is entered, and a gap is owed from then on. -/
theorem loss (h : s.Kept seq gap) {x : Happening α} (hx : x.isLoss = true) (gap' : Bool)
    (hs : s' = { s with gapOwed := s'.gapOwed, log := s.log ++ [x] })
    (howed : s'.gapOwed = true ∨ gap' = true) : s'.Kept seq gap' := by
  have hnone : x.event? = none := by cases x <;> first | rfl | cases hx
  rw [hs]
  refine ⟨⟨?_, h.numbers, ?_⟩, h.bound, fun _ _ _ => howed⟩
  · simp [h.order, hnone]
  · refine List.isChain_append.mpr ⟨h.told, .singleton _, fun y _ z hz _ => .inl ?_⟩
    cases Option.mem_some_iff.mp hz
    exact hx

/-- An event is sent: a gap, or one behind which nothing was lost. -/
theorem trySend (h : s.Kept seq gap) (hs : s.trySend ev = some s') (hseq : seq ≤ ev.seq)
    (hgap : ev.gap = true ∨ gap = false ∧ s.gapOwed = false) : s'.Kept ev.seq false := by
  unfold Subscription.trySend at hs
  split_ifs at hs
  cases hs
  refine ⟨⟨?_, ?_, ?_⟩, ?_, ?_⟩
  · simp [← List.append_assoc, h.order, Happening.event?]
  · rw [← List.append_assoc]
    refine List.pairwise_append.mpr ⟨h.numbers, List.pairwise_singleton .., fun a ha b hb => ?_⟩
    cases List.mem_singleton.mp hb
    exact (h.bound a ha).trans hseq
  · refine List.isChain_append.mpr ⟨h.told, .singleton _, fun x hx y hy hloss => .inr ?_⟩
    cases Option.mem_some_iff.mp hy
    refine ⟨ev, rfl, hgap.resolve_right fun ⟨hno, hfree⟩ => ?_⟩
    have := h.owed x hx hloss
    simp [hno, hfree] at this
  · rw [← List.append_assoc]
    intro a ha
    rcases List.mem_append.mp ha with ha | ha
    · exact (h.bound a ha).trans hseq
    · cases List.mem_singleton.mp ha
      exact le_rfl
  · intro x hx hloss
    rw [List.getLast?_concat] at hx
    cases Option.mem_some_iff.mp hx
    cases hloss

theorem offer (h : s.Kept seq gap) (hseq : seq ≤ ev.seq)
    (hgap : ev.gap = true ∨ gap = false ∧ s.gapOwed = false) : (s.offer ev).Kept ev.seq false := by
  unfold Subscription.offer
  cases hs : s.trySend ev with
  | some s' => exact h.trySend hs hseq hgap
  | none => exact (h.mono hseq).loss (x := .lost ev) rfl false rfl (.inl rfl)

/-- **A delivery** tells the subscriber of what it has lost. -/
theorem deliver (h : s.Kept seq ev.gap) (hseq : seq ≤ ev.seq) (between : Nat) :
    (s.deliver between ev).Kept ev.seq false := by
  unfold Subscription.deliver
  cases howed : s.gapOwed with
  | false =>
    rw [if_neg Bool.false_ne_true]
    refine h.offer hseq ?_
    cases ev.gap <;> simp [howed]
  | true =>
    rw [if_pos rfl]
    cases hs : s.trySend ⟨ev.seq, "", none, false, true⟩ with
    | none =>
      dsimp only
      exact (h.mono hseq).loss (x := .lost ev) rfl false rfl (.inl rfl)
    | some s' =>
      have hsent := h.trySend hs hseq (.inl rfl)
      have hfree : Kept { s' with gapOwed := false } ev.seq false :=
        ⟨⟨hsent.order, hsent.numbers, hsent.told⟩, hsent.bound, fun x hx hloss => by
          -- the last thing that happened is that the gap was sent
          unfold Subscription.trySend at hs
          split_ifs at hs
          cases hs
          rw [List.getLast?_concat] at hx
          cases Option.mem_some_iff.mp hx
          cases hloss⟩
      exact (hfree.receive between).offer le_rfl (.inr ⟨rfl, rfl⟩)

theorem miss (h : s.Kept seq false) (ev : WatchEvent α) : (s.miss ev).Kept seq ev.gap := by
  unfold Subscription.miss
  cases hgap : ev.gap with
  | false => exact h
  | true => exact h.loss (x := .missed) rfl true rfl (.inr rfl)

/-- Whoever is not told of a gap must be owed one. -/
theorem miss_of_owed (h : s.Kept seq false) (ev : WatchEvent α)
    (howed : ev.gap = true → s.gapOwed = true) : (s.miss ev).Kept seq false := by
  unfold Subscription.miss
  cases hgap : ev.gap with
  | false => exact h
  | true => exact h.loss (x := .missed) rfl false rfl (.inl (howed hgap))

end Kept

end Subscription

namespace Watcher

open Subscription Function

variable {w : Watcher α}

def Kept (w : Watcher α) : Prop := ∀ s, w.Registered s → s.Kept w.seq false

theorem Kept.subscribe (h : w.Kept) (key : String) : (w.subscribe key).Kept := by
  have hnew : Subscription.Kept (⟨w.next, key, [], false, [], []⟩ : Subscription α) w.seq false :=
    ⟨⟨rfl, .nil, .nil⟩, by simp, by simp⟩
  unfold Watcher.subscribe
  dsimp only
  split_ifs with hkey <;> rintro s (hs | ⟨k, hs⟩)
  · rcases List.mem_append.mp hs with hs | hs
    · exact h s (.inl hs)
    · exact List.mem_singleton.mp hs ▸ hnew
  · exact h s (.inr ⟨k, hs⟩)
  · exact h s (.inl hs)
  · dsimp only at hs
    rw [update_apply] at hs
    split_ifs at hs with hk
    · rcases List.mem_append.mp hs with hs | hs
      · exact h s (.inr ⟨key, hs⟩)
      · exact List.mem_singleton.mp hs ▸ hnew
    · exact h s (.inr ⟨k, hs⟩)

theorem Kept.unsubscribe (h : w.Kept) (key : String) (id : Nat) : (w.unsubscribe key id).Kept := by
  unfold Watcher.unsubscribe
  split_ifs with hkey <;> rintro s (hs | ⟨k, hs⟩)
  · exact h s (.inl (List.mem_of_mem_filter hs))
  · exact h s (.inr ⟨k, hs⟩)
  · exact h s (.inl hs)
  · dsimp only at hs
    rw [update_apply] at hs
    split_ifs at hs with hk
    · exact h s (.inr ⟨key, List.mem_of_mem_filter hs⟩)
    · exact h s (.inr ⟨k, hs⟩)

theorem Kept.receive (h : w.Kept) (id k : Nat) : (w.receive id k).Kept := by
  have htake : ∀ s, w.Registered s → Subscription.Kept (if s.id = id then s.receive k else s) w.seq false := by
    intro s hs
    split_ifs
    · exact (h s hs).receive k
    · exact h s hs
  rintro _ (hs | ⟨key, hs⟩) <;> obtain ⟨s, hmem, rfl⟩ := List.mem_map.mp hs
  · exact htake s (.inl hmem)
  · exact htake s (.inr ⟨key, hmem⟩)

theorem Kept.notifyEvent (h : w.Kept) {ev : WatchEvent α} {between : Nat → Nat}
    (hreach : w.Reaches (.notify ev between)) : (w.notifyEvent ev between).Kept := by
  have hdeliver : ∀ s, w.Registered s → ((s.miss { ev with seq := w.seq + 1 }).deliver (between s.id)
      { ev with seq := w.seq + 1 }).Kept (w.seq + 1) false := fun s hs =>
    ((h s hs).miss _).deliver (Nat.le_succ _) _
  rintro _ (hs | ⟨key, hs⟩) <;> obtain ⟨s, hmem, rfl⟩ := List.mem_map.mp hs
  · exact hdeliver s (.inl hmem)
  · split_ifs with hkey
    · exact hdeliver s (.inr ⟨key, hmem⟩)
    · exact ((h s (.inr ⟨key, hmem⟩)).mono (Nat.le_succ _)).miss_of_owed _ fun hgap =>
        (hreach hgap key s hmem).resolve_left hkey

theorem Kept.step (h : w.Kept) {event : WatcherEvent α} (hreach : w.Reaches event) :
    (w.step event).Kept := by
  cases event with
  | subscribe key => exact h.subscribe key
  | unsubscribe key id => exact h.unsubscribe key id
  | receive id k => exact h.receive id k
  | notify ev between => exact h.notifyEvent hreach

theorem Kept.run (h : w.Kept) {events : List (WatcherEvent α)} (hreach : Along Reaches w events) :
    (w.run events).Kept := by
  induction events generalizing w with
  | nil => exact h
  | cons event events ih => exact ih (h.step hreach.1) hreach.2

/-- **Subscribers learn of every loss** while the gaps of the store find no subscriber to a single
key who is not owed one. -/
theorem informed_run (events : List (WatcherEvent α)) (hreach : Along Reaches newWatcher events)
    (s : Subscription α) (hs : (newWatcher.run events).Registered s) : s.Informed := by
  have hnew : (newWatcher : Watcher α).Kept := by
    rintro s (hs | ⟨key, hs⟩) <;> cases hs
  exact (hnew.run hreach s hs).toInformed

def change : WatcherEvent Nat := .notify ⟨0, "a", some 7, false, false⟩ fun _ => 0

def storeGap : WatcherEvent Nat := .notify ⟨0, "", none, false, true⟩ fun _ => 0

/-- The second subscriber loses an event at its full channel, and takes two before the next one. -/
def fallsBehind : List (WatcherEvent Nat) :=
  [.subscribe "", storeGap, .subscribe "a"] ++ List.replicate 65 change ++ [.receive 1 2, change]

theorem informed_fallsBehind : ∃ s, ((newWatcher.run fallsBehind).byKey "a")[0]? = some s ∧
    s.log[64]? = some (.lost ⟨66, "a", some 7, false, false⟩) ∧ s.ch[62]?.map (·.gap) = some true ∧
      s.Informed := by
  refine ⟨_, rfl, by decide +kernel, by decide +kernel, informed_run fallsBehind ?_ _
    (.inr ⟨"a", List.mem_of_getElem? (i := 0) rfl⟩)⟩
  refine ⟨trivial, fun _ key s hs => (by cases hs), trivial, ?_⟩
  simp [Along, Reaches, change]

/-- **The gap of the store is not told** to a subscriber of a single key. -/
theorem gap_not_told :
    ((newWatcher.run [.subscribe "a", storeGap, change]).byKey "a").map (fun s => (s.ch, s.log)) =
      [([⟨2, "a", some 7, false, false⟩], [.missed, .sent ⟨2, "a", some 7, false, false⟩])] := by
  decide +kernel

end Watcher

end Raft.Easyraft
