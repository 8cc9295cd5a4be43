import PongPp.Signaling.Wf

/-!
# Members of a room

A player that leaves finds everyone else in its room (`Wf.peerOf_eq`), so a room goes out of
`rooms_` only with nobody left in it: whatever the clients send, a registered player's `room_`
is filed under its code (`member_filed`). The code counter is the one limit: rooms are told
apart by their codes until it wraps.
-/

namespace PongPp.Signaling

open Function Lib

/-! ## Codes -/

def Event.isCreate : Event → Bool
  | .message _ m => parseVerb m = .create
  | _ => false

/-- The number of CREATEs of a run. -/
def creates (ls : List Label) : Nat := ls.countP fun l => l.2.isCreate

/-- The code counter does not wrap at this step. -/
def CodeLeft (l : Label) (w : World) : Prop :=
  l.2.isCreate = true → w.nextCode.toNat + 1 < 2 ^ 64

theorem nextCode_succ {c : RoomCode} (h : c.toNat + 1 < 2 ^ 64) : (c + 1).toNat = c.toNat + 1 := by
  rw [UInt64.toNat_add]
  simpa using h

theorem nextCode_step {w : World} (hw : Wf w) (l : Label) :
    (step l w).nextCode = w.nextCode ∨
      l.2.isCreate = true ∧ (step l w).nextCode = w.nextCode + 1 := by
  refine step_rule hw
    (P := fun v => v.nextCode = w.nextCode ∨ l.2.isCreate = true ∧ v.nextCode = w.nextCode + 1)
    (fun _ _ h => h) fun w' ps he => ?_
  obtain ⟨o, e⟩ := l
  cases he with
  | create p m hp hv => exact .inr ⟨by simp [Event.isCreate, hv], rfl⟩
  | _ => exact .inl rfl

theorem codeLeft_of_creates {ls : List Label} {w : World} (hw : Wf w)
    (h : creates ls + w.nextCode.toNat < 2 ^ 64) : Guarded step CodeLeft ls w := by
  induction ls generalizing w with
  | nil => trivial
  | cons l ls ih =>
    have hcount : creates (l :: ls) = creates ls + if l.2.isCreate then 1 else 0 :=
      List.countP_cons ..
    have hleft : CodeLeft l w := fun hc => by
      rw [hcount, if_pos hc] at h
      omega
    refine ⟨hleft, ih (hw.step l) ?_⟩
    rcases nextCode_step hw l with hn | ⟨hc, hn⟩
    · rw [hn]; rw [hcount] at h; omega
    · rw [hn, nextCode_succ (hleft hc)]
      rw [hcount, if_pos hc] at h
      omega

theorem codeLeft_init {ls : List Label} (h : creates ls < 2 ^ 64 - 1) :
    Guarded step CodeLeft ls .init := by
  apply codeLeft_of_creates .init
  have : World.init.nextCode.toNat = 1 := rfl
  omega

/-! ## Membership is filed -/

structure Filed (w : World) : Prop where
  next_pos : 0 < w.nextCode.toNat
  key_pos : ∀ c r, w.rooms.lookup c = some r → 0 < c.toNat
  key_lt : ∀ c r, w.rooms.lookup c = some r → c.toNat < w.nextCode.toNat
  filed : ∀ p r, w.roomOf p = some r → w.rooms.lookup (w.room r).code = some r

namespace Filed

variable {w : World}

theorem emit (h : Filed w) (ps : List (PlayerId × Packet)) : Filed (w.emit ps) :=
  ⟨h.1, h.2, h.3, h.4⟩

theorem init : Filed World.init where
  next_pos := by decide
  key_pos c r h := by simp [World.init] at h
  key_lt c r h := by simp [World.init] at h
  filed p r h := by simp [World.init] at h

theorem nextCode_free (h : Filed w) : w.rooms.lookup w.nextCode = none := by
  cases hl : w.rooms.lookup w.nextCode with
  | none => rfl
  | some r => exact absurd (h.key_lt _ r hl) (lt_irrefl _)

theorem hosted (h : Filed w) (hw : Wf w) (hlt : w.nextCode.toNat + 1 < 2 ^ 64) (p : PlayerId) :
    Filed (w.hosted p) where
  next_pos := by
    show 0 < (w.nextCode + 1).toNat
    rw [nextCode_succ hlt]
    exact Nat.succ_pos _
  key_pos c r hl := by
    rcases World.lookup_hosted hl with ⟨rfl, -⟩ | hl
    · exact h.next_pos
    · exact h.key_pos c r hl
  key_lt c r hl := by
    show c.toNat < (w.nextCode + 1).toNat
    rw [nextCode_succ hlt]
    rcases World.lookup_hosted hl with ⟨rfl, -⟩ | hl
    · exact Nat.lt_succ_self _
    · exact Nat.lt_succ_of_lt (h.key_lt c r hl)
  filed q r hr := by
    simp only [World.hosted, World.lookup_emplace]
    rcases World.roomOf_hosted hr with ⟨-, rfl⟩ | ⟨-, hr⟩
    · simp [h.nextCode_free]
    · have hf := h.filed q r hr
      rw [update_of_ne (hw.room_lt q r hr).ne, if_neg]
      · exact hf
      · rintro ⟨hc, hn⟩
        rw [← hc, hf] at hn
        cases hn

theorem guested (h : Filed w) (hw : Wf w) {c : RoomCode} {r : RoomId} (hj : w.Joinable c r)
    (p : PlayerId) : Filed (w.guested p r) where
  next_pos := h.next_pos
  key_pos := h.key_pos
  key_lt := h.key_lt
  filed q s hs := by
    show w.rooms.lookup _ = _
    rw [World.guested_code]
    rcases World.roomOf_guested hs with ⟨-, rfl⟩ | ⟨-, hs⟩
    · rw [hw.filed_code c s hj.2.1]
      exact hj.2.1
    · exact h.filed q s hs

theorem departed (h : Filed w) (hw : Wf w) (p : PlayerId) : Filed (w.departed p) where
  next_pos := h.next_pos
  key_pos c r hl := h.key_pos c r (World.lookup_departed hl).1
  key_lt c r hl := h.key_lt c r (World.lookup_departed hl).1
  filed q s hs := by
    have hf := h.filed q s (World.roomOf_departed hs).2.2
    show (w.roomsWithout p).lookup (w.room s).code = _
    unfold World.roomsWithout
    cases hp : w.roomOf p with
    | none => exact hf
    | some r =>
      have hne : (w.room s).code ≠ (w.room r).code := fun hc =>
        hw.left_departed hp hs (by
          have := h.filed p r hp
          rw [← hc, hf] at this
          exact Option.some.inj this)
      simp only [AList.lookup_erase_ne hne]
      exact hf

theorem step (h : Filed w) (hw : Wf w) {l : Label} (hl : CodeLeft l w) :
    Filed (step l w) := by
  refine step_rule hw (fun _ ps h => h.emit ps) fun w' ps he => ?_
  obtain ⟨o, e⟩ := l
  cases he with
  | connect =>
    exact ⟨h.next_pos, h.key_pos, h.key_lt,
      fun p r hr => h.filed p r (by rwa [← hw.roomOf_register])⟩
  | create p m hp hv => exact h.hosted hw (hl (by simp [Event.isCreate, hv])) p
  | join p m body r hp _ hj => exact h.guested hw hj p
  | disconnect p => exact h.departed hw p
  | _ => exact h

end Filed

/-- **No dangling membership.** Whatever verbs the clients send when, a registered player's
room is filed under its code and the player has a seat in it. -/
theorem member_filed (ls : List Label) (h : creates ls < 2 ^ 64 - 1) :
    ∀ p ∈ (run step ls .init).players, ∀ r, (run step ls .init).roomOf p = some r →
      (run step ls .init).rooms.lookup ((run step ls .init).room r).code = some r ∧
        (((run step ls .init).room r).host = some p ∨
          ((run step ls .init).room r).guest = some p) := by
  have hw := Wf.init.run ls
  have hfiled : Filed (run step ls .init) :=
    Wf.init.run_guarded (fun _ _ hw hl h => h.step hw hl) (codeLeft_init h) .init
  exact fun p _ r hr => ⟨hfiled.filed p r hr, hw.seated p r hr⟩

/-- A host that has joined its own room. -/
theorem member_filed_selfJoin :
    let w := run step [(.id, .connect), (.id, .message 0 (ascii "CREATE")),
      (.id, .message 0 (ascii "JOIN 1"))] World.init
    ∀ p ∈ w.players, ∀ r, w.roomOf p = some r →
      w.rooms.lookup (w.room r).code = some r ∧
        ((w.room r).host = some p ∨ (w.room r).guest = some p) :=
  member_filed _ (by decide)

end PongPp.Signaling
