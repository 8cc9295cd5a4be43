import Mathlib.Data.Set.Insert
import Mathlib.Logic.Function.Basic

/-!
# The matchmaker

What the signaling server is for, without rooms, pointers or sockets. Players are in the lobby,
wait as the host of a code, or play with somebody; every action says who moves where and what
each player is told. `Place` names where a player can be; `OnePlace` says it is in one of them
at most.
-/

namespace PongPp.Signaling

open Function

/-- What a player is told, with room lists as sets. -/
inductive Notice (C B : Type*) where
  | rooms (codes : Set C)
  | created (code : C)
  | readyHost
  | readyGuest
  | relay (body : B)
  | peerLeft
  | joinFailed
  | notInRoom
  | unknownVerb

inductive Action (P C B : Type*) where
  | connect (p : P)
  | list (p : P)
  | create (p : P)
  | join (p : P) (code : C)
  | relay (p : P) (body : B)
  | unknown (p : P)
  | disconnect (p : P)

@[ext] structure Matchmaker (P C : Type*) where
  lobby : Set P
  /-- The host that waits under a code. -/
  waiting : C → Option P
  /-- The host and guest that play under a code. -/
  playing : C → Option (P × P)
  next : C

namespace Matchmaker

variable {P C B : Type*}

/-- Nobody is there and the first code is `c`. -/
def empty (c : C) : Matchmaker P C := ⟨∅, fun _ => none, fun _ => none, c⟩

section Place

variable (m : Matchmaker P C)

/-- The joinable codes. -/
def codes : Set C := {c | m.waiting c ≠ none}

def Partner (p q : P) : Prop := ∃ c, m.playing c = some (p, q) ∨ m.playing c = some (q, p)

inductive Place (C : Type*) where
  | lobby
  | waiting (code : C)
  | host (code : C)
  | guest (code : C)

def At (p : P) : Place C → Prop
  | .lobby => p ∈ m.lobby
  | .waiting c => m.waiting c = some p
  | .host c => ∃ g, m.playing c = some (p, g)
  | .guest c => ∃ h, m.playing c = some (h, p)

/-- The `connected` players, and no others, are in exactly one place. -/
structure OnePlace (connected : P → Prop) : Prop where
  one : ∀ p, connected p → ∃! a, m.At p a
  none : ∀ p, ¬ connected p → ∀ a, ¬ m.At p a

end Place

open Classical in
/-- Who moves where. -/
noncomputable def step [DecidableEq C] [Add C] [One C] (a : Action P C B) (m : Matchmaker P C) :
    Matchmaker P C :=
  match a with
  | .connect p => { m with lobby := insert p m.lobby }
  | .create p =>
    { m with lobby := m.lobby \ {p}
             waiting := update m.waiting m.next (some p)
             next := m.next + 1 }
  | .join p c =>
    match m.waiting c with
    | none => m
    | some h =>
      { m with lobby := m.lobby \ {p}
               waiting := update m.waiting c none
               playing := update m.playing c (some (h, p)) }
  | .disconnect p =>
    { m with lobby := (m.lobby ∪ {q | m.Partner p q}) \ {p}
             waiting := fun c => if m.waiting c = some p then none else m.waiting c
             playing := fun c =>
               if ∃ q, m.playing c = some (p, q) ∨ m.playing c = some (q, p) then none
               else m.playing c }
  | .list _ | .relay _ _ | .unknown _ => m

section Disconnect

variable [DecidableEq C] [Add C] [One C] {m : Matchmaker P C} {p h g : P} {c : C}

theorem waiting_disconnect :
    (m.step (.disconnect p : Action P C B)).waiting c = some h ↔
      m.waiting c ≠ some p ∧ m.waiting c = some h := by
  simp only [step, Option.ite_none_left_eq_some, ne_eq]

theorem playing_disconnect :
    (m.step (.disconnect p : Action P C B)).playing c = some (h, g) ↔
      (¬ ∃ q, m.playing c = some (p, q) ∨ m.playing c = some (q, p)) ∧
        m.playing c = some (h, g) := by
  simp only [step, Option.ite_none_left_eq_some]

end Disconnect

open Classical in
/-- What each player is told, in order. -/
noncomputable def told [DecidableEq P] [DecidableEq C] [Add C] [One C] (a : Action P C B)
    (m : Matchmaker P C) (q : P) : List (Notice C B) :=
  -- the joinable codes as they are after the action
  let news : List (Notice C B) := [.rooms (m.step a).codes]
  match a with
  | .connect _ => []
  | .list p => if q = p then [.rooms m.codes] else []
  | .create p => if q = p then [.created m.next] else if q ∈ m.lobby then news else []
  | .join p c =>
    match m.waiting c with
    | none => if q = p then [.joinFailed] else []
    | some h =>
      if q = p then [.readyGuest]
      else if q = h then [.readyHost]
      else if q ∈ m.lobby then news else []
  | .relay p body =>
    if m.Partner p q then [.relay body]
    else if q = p ∧ ∀ x, ¬ m.Partner p x then [.notInRoom] else []
  | .unknown p => if q = p then [.unknownVerb] else []
  | .disconnect p =>
    if m.Partner p q then .peerLeft :: news
    else if p ∉ m.lobby ∧ q ∈ m.lobby then news else []

end Matchmaker

end PongPp.Signaling
