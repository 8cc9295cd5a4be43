import PongPp.Signaling.Wf

/-!
# Seats and players agree

Membership is stored twice, as `Player::room_` and as the room's two weak pointers. `CREATE` and
`JOIN` never look at the sender's own `room_`, so the copies agree only as long as no seated
player sends one that takes another seat: `FromLobby`, or the weaker `Settled`, which lets a
player join the room it is in. `Tidy` is the agreement; it is about rooms and not about codes,
so it does not need the code counter to stay below its limit.
-/

namespace PongPp.Signaling

open Function Lib

/-- The verbs that take a seat. -/
def Verb.seats : Verb → Bool
  | .create | .join _ => true
  | _ => false

/-- `r` is filed or some player's `room_`. -/
def World.Held (w : World) (r : RoomId) : Prop :=
  (∃ c, w.rooms.lookup c = some r) ∨ ∃ p, w.roomOf p = some r

/-- The sender of a `CREATE` is in no room, that of a `JOIN` that succeeds in no room but the
one it joins. -/
def Settled (l : Label) (w : World) : Prop :=
  match l.2 with
  | .message p m =>
    p ∈ w.players → (parseVerb m = .create → w.roomOf p = none) ∧
      ∀ r ∈ w.joinTarget m, w.roomOf p = none ∨ w.roomOf p = some r
  | _ => True

/-- The sender of a `CREATE`, or of a `JOIN` that succeeds, is in no room. -/
def FromLobby (l : Label) (w : World) : Prop :=
  match l.2 with
  | .message p m =>
    p ∈ w.players → (parseVerb m = .create → w.roomOf p = none) ∧
      ∀ _r ∈ w.joinTarget m, w.roomOf p = none
  | _ => True

instance (l : Label) (w : World) : Decidable (Settled l w) :=
  match l with
  | (_, .message ..) => inferInstanceAs (Decidable (_ → _))
  | (_, .connect) | (_, .disconnect _) => .isTrue trivial

instance (l : Label) (w : World) : Decidable (FromLobby l w) :=
  match l with
  | (_, .message ..) => inferInstanceAs (Decidable (_ → _))
  | (_, .connect) | (_, .disconnect _) => .isTrue trivial

theorem FromLobby.settled (l : Label) (w : World) (h : FromLobby l w) : Settled l w := by
  obtain ⟨o, e⟩ := l
  cases e with
  | message p m => exact fun hp => ⟨(h hp).1, fun r hr => .inl ((h hp).2 r hr)⟩
  | _ => trivial

/-- The sender of a `CREATE` or a `JOIN`, whatever comes of it, is in no room. -/
def Disciplined (l : Label) (w : World) : Prop :=
  match l.2 with
  | .message p m => p ∈ w.players → (parseVerb m).seats = true → w.roomOf p = none
  | _ => True

instance (l : Label) (w : World) : Decidable (Disciplined l w) :=
  match l with
  | (_, .message ..) => inferInstanceAs (Decidable (_ → _ → _))
  | (_, .connect) | (_, .disconnect _) => .isTrue trivial

theorem Disciplined.fromLobby {l : Label} {w : World} (h : Disciplined l w) : FromLobby l w := by
  obtain ⟨o, e⟩ := l
  cases e with
  | message p m =>
    refine fun hp => ⟨fun hv => h hp (by rw [hv]; rfl), fun r hr => h hp ?_⟩
    obtain ⟨body, hv, -⟩ := w.joinTarget_eq_some.mp hr
    rw [hv]
    rfl
  | _ => trivial

/-! ## Held rooms -/

namespace World.Held

variable {w : World} {p : PlayerId} {r s : RoomId}

theorem lt (hw : Wf w) (h : w.Held r) : r < w.nextRoom := by
  rcases h with ⟨c, hc⟩ | ⟨p, hp⟩
  · exact hw.filed_lt c r hc
  · exact hw.room_lt p r hp

theorem of_hosted (h : (w.hosted p).Held r) : r = w.nextRoom ∨ w.Held r := by
  rcases h with ⟨c, hc⟩ | ⟨q, hq⟩
  · rcases lookup_hosted hc with ⟨-, hr⟩ | hc
    · exact .inl hr
    · exact .inr (.inl ⟨c, hc⟩)
  · rcases roomOf_hosted hq with ⟨-, hr⟩ | ⟨-, hq⟩
    · exact .inl hr
    · exact .inr (.inr ⟨q, hq⟩)

theorem of_guested {c : RoomCode} (hj : w.Joinable c r) (h : (w.guested p r).Held s) :
    w.Held s := by
  rcases h with ⟨c, hc⟩ | ⟨q, hq⟩
  · exact .inl ⟨c, hc⟩
  · rcases roomOf_guested hq with ⟨-, rfl⟩ | ⟨-, hq⟩
    · exact .inl ⟨_, hj.2.1⟩
    · exact .inr ⟨q, hq⟩

theorem of_departed (hw : Wf w) (h : (w.departed p).Held s) : w.Held s ∧ w.roomOf p ≠ some s := by
  rcases h with ⟨c, hc⟩ | ⟨q, hq⟩
  · obtain ⟨hl, hne⟩ := lookup_departed hc
    exact ⟨.inl ⟨c, hl⟩, fun hp => hne s hp (hw.filed_code c s hl).symm⟩
  · exact ⟨.inr ⟨q, (roomOf_departed hq).2.2⟩, fun hp => hw.left_departed hp hq rfl⟩

end World.Held

/-! ## The invariant -/

/-- Every seat of a held room is its player's one place. -/
def Tidy (w : World) : Prop := ∀ r, w.Held r → ∀ p, (w.room r).Has p → w.roomOf p = some r

namespace Tidy

variable {w : World}

theorem init : Tidy World.init := by
  rintro r (⟨c, hc⟩ | ⟨p, hp⟩)
  · simp [World.init] at hc
  · simp [World.init] at hp

theorem hosted (h : Tidy w) (hw : Wf w) {p : PlayerId} (hp : w.roomOf p = none) :
    Tidy (w.hosted p) := by
  intro r hr q hq
  rw [World.hosted_roomOf]
  rcases hr.of_hosted with rfl | hr
  · rw [World.hosted_room_new] at hq
    rcases hq with hq | hq <;> cases hq
    exact if_pos rfl
  · rw [World.hosted_room_old (hr.lt hw)] at hq
    have hqr := h r hr q hq
    rw [if_neg, hqr]
    rintro rfl
    rw [hp] at hqr
    cases hqr

theorem guested (h : Tidy w) {p : PlayerId} {c : RoomCode} {r : RoomId} (hj : w.Joinable c r)
    (hp : w.roomOf p = none ∨ w.roomOf p = some r) : Tidy (w.guested p r) := by
  intro s hs q hq
  replace hs := hs.of_guested hj
  rw [Room.Has, World.guested_host, World.guested_guest] at hq
  rw [World.guested_roomOf]
  by_cases hqp : q = p
  · subst hqp
    rw [if_pos rfl]
    by_cases hsr : s = r
    · rw [hsr]
    · -- a seat elsewhere would be the joiner's place already
      rw [if_neg hsr] at hq
      have hqs := h s hs q hq
      rcases hp with hp | hp
      · rw [hp] at hqs; cases hqs
      · rw [hp] at hqs; exact hqs
  · rw [if_neg hqp]
    split at hq
    · rcases hq with hq | hq
      · exact h s hs q (.inl hq)
      · cases hq; exact absurd rfl hqp
    · exact h s hs q hq

theorem peer_room (h : Tidy w) {p q : PlayerId} (hpq : w.peerOf p = some q) :
    q ≠ p ∧ ∃ r, w.roomOf p = some r ∧ w.roomOf q = some r := by
  obtain ⟨r, hr, hq⟩ := Option.bind_eq_some_iff.mp hpq
  obtain ⟨hseat, -, hne⟩ := w.mem_otherPlayer hq
  exact ⟨hne, r, hr, h r (.inr ⟨p, hr⟩) q hseat⟩

theorem departed (h : Tidy w) (hw : Wf w) (p : PlayerId) : Tidy (w.departed p) := by
  intro s hs q hq
  obtain ⟨hs, hne⟩ := hs.of_departed hw
  have hqs := h s hs q hq
  rw [World.departed_roomOf, if_neg, hqs]
  rintro (rfl | hpq)
  · exact hne hqs
  · obtain ⟨-, r, hpr, hqr⟩ := h.peer_room hpq
    rw [hqs] at hqr
    exact hne (hpr.trans hqr.symm)

theorem step (h : Tidy w) (hw : Wf w) {l : Label} (hl : Settled l w) : Tidy (step l w) := by
  refine step_rule hw (fun _ _ h => h) fun w' ps he => ?_
  obtain ⟨o, e⟩ := l
  cases he with
  | connect =>
    intro r hr q hq
    rw [World.Held, hw.roomOf_register] at hr
    rw [hw.roomOf_register]
    exact h r hr q hq
  | create p m hp hv => exact h.hosted hw ((hl hp).1 hv)
  | join p m body r hp hv hj => exact h.guested hj ((hl hp).2 r (hj.target hv))
  | disconnect p => exact h.departed hw p
  | _ => exact h

theorem run {ls : List Label} (h : Guarded Signaling.step Settled ls .init) :
    Wf (run Signaling.step ls .init) ∧ Tidy (run Signaling.step ls .init) :=
  ⟨Wf.init.run ls, Wf.init.run_guarded (fun _ _ hw hl h => h.step hw hl) h init⟩

end Tidy

/-! ## Exclusive seats -/

inductive Chair where
  | host
  | guest
  deriving DecidableEq, Repr

def Room.chair (room : Room) : Chair → Option PlayerId
  | .host => room.host
  | .guest => room.guest

theorem Room.has_of_chair {room : Room} {k : Chair} {p : PlayerId} (h : room.chair k = some p) :
    room.Has p := by
  cases k with
  | host => exact .inl h
  | guest => exact .inr h

/-- A live player has at most one seat over all rooms of `rooms_`, and it is in its `room_`. -/
structure Exclusive (w : World) : Prop where
  one : ∀ q, w.alive q = true → ∀ c c' r r' k k',
    w.rooms.lookup c = some r → (w.room r).chair k = some q →
    w.rooms.lookup c' = some r' → (w.room r').chair k' = some q → c = c' ∧ k = k'
  own : ∀ q, w.alive q = true → ∀ c r,
    w.rooms.lookup c = some r → (w.room r).Has q → w.roomOf q = some r

/-- No player is both host and guest of a held room. -/
def Apart (w : World) : Prop :=
  ∀ r, w.Held r → ∀ p, (w.room r).host = some p → (w.room r).guest ≠ some p

theorem Apart.init : Apart World.init := by
  rintro r (⟨c, hc⟩ | ⟨p, hp⟩)
  · simp [World.init] at hc
  · simp [World.init] at hp

theorem Apart.step {w : World} (h : Apart w) (hw : Wf w) (ht : Tidy w) {l : Label}
    (hl : FromLobby l w) : Apart (step l w) := by
  refine step_rule hw (fun _ _ h => h) fun w' ps he => ?_
  obtain ⟨o, e⟩ := l
  cases he with
  | connect =>
    intro r hr
    rw [World.Held, hw.roomOf_register] at hr
    exact h r hr
  | create p m hp hv =>
    intro r hr q hq
    rcases hr.of_hosted with rfl | hr
    · simp
    · rw [World.hosted_room_old (hr.lt hw)] at hq ⊢
      exact h r hr q hq
  | join p m body r hp hv hj =>
    intro s hs q hq
    replace hs := hs.of_guested hj
    rw [World.guested_host] at hq
    rw [World.guested_guest]
    split
    · -- a host that took the other chair would have been in the room
      rename_i hsr
      rintro ⟨⟩
      have hps := ht s hs p (.inl hq)
      rw [(hl hp).2 r (hj.target hv)] at hps
      cases hps
    · exact h s hs q hq
  | disconnect p => exact fun s hs => h s (hs.of_departed hw).1
  | _ => exact h

/-- **Seat exclusivity**, as long as nobody creates or joins from inside a room. -/
theorem seats_exclusive (ls : List Label) (h : Guarded step FromLobby ls .init) :
    Exclusive (run step ls .init) := by
  have hw := Wf.init.run ls
  obtain ⟨ht, ha⟩ : Tidy (run step ls .init) ∧ Apart (run step ls .init) :=
    Wf.init.run_guarded (I := fun w => Tidy w ∧ Apart w)
      (fun l w hw hl h => ⟨h.1.step hw (hl.settled l w), h.2.step hw h.1 hl⟩) h ⟨.init, .init⟩
  refine ⟨fun q _ c c' r r' k k' hl hk hl' hk' => ?_, fun q _ c r hl => ht r (.inl ⟨c, hl⟩) q⟩
  have hr := ht r (.inl ⟨c, hl⟩) q (Room.has_of_chair hk)
  have hr' := ht r' (.inl ⟨c', hl'⟩) q (Room.has_of_chair hk')
  obtain rfl : r = r' := Option.some.inj (hr.symm.trans hr')
  refine ⟨(hw.filed_code c r hl).symm.trans (hw.filed_code c' r hl'), ?_⟩
  have hapart := ha r (.inl ⟨c, hl⟩) q
  cases k with
  | host =>
    cases k' with
    | host => rfl
    | guest => exact absurd hk' (hapart hk)
  | guest =>
    cases k' with
    | host => exact absurd hk (hapart hk')
    | guest => rfl

/-- A host and its guest. -/
theorem seats_exclusive_pair :
    Exclusive (run step [(.id, .connect), (.id, .connect), (.id, .message 0 (ascii "CREATE")),
      (.id, .message 1 (ascii "JOIN 1"))] .init) :=
  seats_exclusive _ (by decide)

/-- A player that creates twice hosts two rooms. -/
theorem seats_createTwice : ¬ ∀ ls : List Label, Exclusive (run step ls .init) := by
  intro h
  have hone := (h [(.id, .connect), (.id, .message 0 (ascii "CREATE")),
    (.id, .message 0 (ascii "CREATE"))]).one 0 (by decide) 1 2 0 1 .host .host
    (by decide) (by decide) (by decide) (by decide)
  exact absurd hone.1 (by decide)

end PongPp.Signaling
