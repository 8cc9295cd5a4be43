import PongPp.Signaling.Refine

/-!
# The two players of a room

Once a room has a host and a guest it has these two for good (`Opposite.step`), nobody else comes
in (`Opposite.back`), and whoever is relayed a line, or told that a game begins, is one of the two
(`game_sent`).
-/

namespace PongPp.Signaling

open Function Lib

/-- `p` and `q` are the host and the guest of `r`. -/
structure Opposite (w : World) (r : RoomId) (p q : PlayerId) : Prop where
  ne : q ≠ p
  lt : r < w.nextRoom
  seats : (w.room r).host = some p ∧ (w.room r).guest = some q ∨
    (w.room r).host = some q ∧ (w.room r).guest = some p

namespace Opposite

variable {w : World} {l : Label} {r : RoomId} {p q x : PlayerId}

theorem symm (h : Opposite w r p q) : Opposite w r q p := ⟨h.ne.symm, h.lt, h.seats.symm⟩

theorem guest (h : Opposite w r p q) : (w.room r).guest ≠ none := by
  rcases h.seats with ⟨-, hg⟩ | ⟨-, hg⟩ <;> rw [hg] <;> exact nofun

theorem unique (h : Opposite w r p q) (hx : Opposite w r p x) : x = q := by
  rcases h.seats with ⟨hh, hg⟩ | ⟨hh, hg⟩ <;> rcases hx.seats with ⟨hh', hg'⟩ | ⟨hh', hg'⟩
  · exact Option.some.inj (hg'.symm.trans hg)
  · exact absurd (Option.some.inj (hg.symm.trans hg')) h.ne
  · exact absurd (Option.some.inj (hg'.symm.trans hg)) hx.ne
  · exact Option.some.inj (hh'.symm.trans hh)

theorem peer (h : Opposite w r p q) (hw : Orderly w) (hp : w.roomOf p = some r)
    (hq : w.roomOf q = some r) : w.peerOf p = some q := hw.wf.peerOf_eq hp hq h.ne

theorem of_peer (hw : Orderly w) (h : w.peerOf p = some q) :
    ∃ r, w.roomOf p = some r ∧ w.roomOf q = some r ∧ Opposite w r p q := by
  obtain ⟨hne, r, hp, hq⟩ := hw.tidy.peer_room h
  refine ⟨r, hp, hq, hne, hw.wf.room_lt p r hp, ?_⟩
  rcases hw.wf.seated p r hp with hsp | hsp <;> rcases hw.wf.seated q r hq with hsq | hsq
  · exact absurd (Option.some.inj (hsq.symm.trans hsp)) hne
  · exact .inl ⟨hsp, hsq⟩
  · exact .inr ⟨hsq, hsp⟩
  · exact absurd (Option.some.inj (hsq.symm.trans hsp)) hne

theorem step (hw : Orderly w) (h : Opposite w r p q) (l : Label) :
    Opposite (Signaling.step l w) r p q := by
  refine step_rule hw.wf (P := fun v => Opposite v r p q) (fun _ _ h => ⟨h.1, h.2, h.3⟩)
    fun w' ps he => ?_
  obtain ⟨o, e⟩ := l
  cases he with
  | create x m =>
    refine ⟨h.ne, Nat.lt_succ_of_lt h.lt, ?_⟩
    rw [World.hosted_room_old h.lt]
    exact h.seats
  | join x m body s hx hv hj =>
    have hne : r ≠ s := by
      rintro rfl
      exact h.guest ((hw.expired_iff hj.2.1).mp hj.2.2)
    refine ⟨h.ne, h.lt, ?_⟩
    rw [World.guested_host, World.guested_guest, if_neg hne]
    exact h.seats
  | _ => exact ⟨h.ne, h.lt, h.seats⟩

/-- A new pair is made by a `JOIN`, and that is told to the two only. -/
theorem of_step (hw : Orderly w) (h : Opposite (Signaling.step l w) r p q) :
    Opposite w r p q ∨
      (∀ x y, ¬ Opposite w r x y) ∧ ∀ x body, (x, .text (.relay body)) ∉ sent l w := by
  obtain ⟨w', he, hs⟩ := step_effect hw.wf l
  rw [hs] at h
  replace h : Opposite w' r p q := ⟨h.1, h.2, h.3⟩
  generalize sent l w = ps at he ⊢
  obtain ⟨o, e⟩ := l
  cases he with
  | create x m =>
    rcases Nat.lt_succ_iff_lt_or_eq.mp h.lt with hlt | rfl
    · refine .inl ⟨h.ne, hlt, ?_⟩
      rw [← World.hosted_room_old (p := x) hlt]
      exact h.seats
    · refine absurd ?_ h.guest
      rw [World.hosted_room_new]
  | join x m body s hx hv hj =>
    by_cases hrs : r = s
    · subst hrs
      have hempty := (hw.expired_iff hj.2.1).mp hj.2.2
      refine .inr ⟨fun y z hyz => hyz.guest hempty, fun y b hy => ?_⟩
      rcases List.mem_append.mp hy with hy | hy
      · exact World.notMem_roomList (by simp) hy
      · rcases World.mem_readies.mp hy with ⟨-, -, hk⟩ | ⟨-, hk⟩ <;> cases hk
    · refine .inl ⟨h.ne, h.lt, ?_⟩
      have hseats := h.seats
      rw [World.guested_host, World.guested_guest, if_neg hrs] at hseats
      exact hseats
  | _ => exact .inl ⟨h.ne, h.lt, h.seats⟩

/-- Nobody comes into a room with two seats taken. -/
theorem back (hw : Orderly w) (h : Opposite w r p q) (hx : (Signaling.step l w).roomOf x = some r) :
    w.roomOf x = some r := by
  obtain ⟨w', he, hs⟩ := step_effect hw.wf l
  rw [hs] at hx
  replace hx : w'.roomOf x = some r := hx
  generalize sent l w = ps at he
  obtain ⟨o, e⟩ := l
  cases he with
  | connect => rwa [hw.wf.roomOf_register] at hx
  | create y m =>
    rcases World.roomOf_hosted hx with ⟨-, hr⟩ | ⟨-, hx⟩
    · exact absurd hr h.lt.ne
    · exact hx
  | join y m body s hy hv hj =>
    rcases World.roomOf_guested hx with ⟨-, rfl⟩ | ⟨-, hx⟩
    · exact absurd ((hw.expired_iff hj.2.1).mp hj.2.2) h.guest
    · exact hx
  | disconnect y hy => exact (World.roomOf_departed hx).2.2
  | _ => exact hx

theorem of_guest (hw : Orderly w) (hp : w.roomOf p = some r) (hg : (w.room r).guest ≠ none) :
    ∃ q, Opposite w r p q := by
  have hlt := hw.wf.room_lt p r hp
  obtain ⟨g, hg⟩ := Option.ne_none_iff_exists'.mp hg
  obtain ⟨h, hh⟩ := hw.wf.has_host r hlt
  have hne : g ≠ h := fun heq => hw.apart r (.inr ⟨p, hp⟩) h hh (heq ▸ hg)
  rcases hw.wf.seated p r hp with hs | hs
  · obtain rfl := Option.some.inj (hh.symm.trans hs)
    exact ⟨g, hne, hlt, .inl ⟨hh, hg⟩⟩
  · obtain rfl := Option.some.inj (hg.symm.trans hs)
    exact ⟨h, hne.symm, hlt, .inr ⟨hh, hg⟩⟩

end Opposite

/-! ## What is sent in a game -/

section Sent

variable {w : World} {l : Label} {p : PlayerId}

/-- What is sent in a game only. -/
def Msg.isGame : Msg → Bool
  | .relay _ | .readyHost | .readyGuest => true
  | _ => false

theorem relays_sent (hw : Wf w) (l : Label) :
    (∀ x body, (x, .text (.relay body)) ∉ sent l w) ∨
      ∃ p m body q, l.2 = .message p m ∧ p ∈ w.players ∧ parseVerb m = .relay body ∧
        w.peerOf p = some q ∧ sent l w = [(q, .text (.relay body))] ∧
        ∀ x, (step l w).roomOf x = w.roomOf x := by
  refine or_iff_not_imp_left.mpr fun hrelay => ?_
  push Not at hrelay
  obtain ⟨x, body, hx⟩ := hrelay
  obtain ⟨p, m, hl, hp, hv, hpeer⟩ := (relay_mem_sent hw).mp hx
  obtain ⟨w', he, hs⟩ := step_effect hw l
  obtain ⟨o, e⟩ := l
  obtain rfl : e = .message p m := hl
  obtain ⟨rfl, hsent⟩ := he.of_relay hp hv hpeer
  exact ⟨p, m, body, x, rfl, hp, hv, hpeer, hsent, fun y => by rw [hs]; rfl⟩

theorem game_sent (hw : Orderly w) (hw' : Orderly (step l w)) {msg : Msg} (hmsg : msg.isGame)
    (h : (p, .text msg) ∈ sent l w) :
    ∃ r q, (step l w).roomOf p = some r ∧ Opposite (step l w) r p q := by
  suffices ∃ r, (step l w).roomOf p = some r ∧ ((step l w).room r).guest ≠ none by
    obtain ⟨r, hp, hg⟩ := this
    obtain ⟨q, hq⟩ := Opposite.of_guest hw' hp hg
    exact ⟨r, q, hp, hq⟩
  obtain ⟨w', he, hs⟩ := step_effect hw.wf l
  rw [hs]
  suffices ∃ r, w'.roomOf p = some r ∧ (w'.room r).guest ≠ none from this
  generalize sent l w = ps at he h
  obtain ⟨o, e⟩ := l
  have hlist : ∀ codes, (Packet.text msg) ≠ .text (.rooms codes) := by
    rintro codes ⟨⟩
    cases hmsg
  cases he with
  | connect | goneMessage | goneDisconnect => cases h
  | list | joinFailed | relayFailed | unknown =>
    cases (Prod.mk.inj (List.mem_singleton.mp h)).2
    cases hmsg
  | create =>
    rcases List.mem_append.mp h with h | h
    · exact absurd h (World.notMem_roomList hlist)
    · cases (Prod.mk.inj (List.mem_singleton.mp h)).2
      cases hmsg
  | relay x m body q hx hv hpeer =>
    obtain rfl := (Prod.mk.inj (List.mem_singleton.mp h)).1
    obtain ⟨r, -, hr, hopp⟩ := Opposite.of_peer hw hpeer
    exact ⟨r, hr, hopp.guest⟩
  | join x m body r hx hv hj =>
    rcases List.mem_append.mp h with h | h
    · exact absurd h (World.notMem_roomList hlist)
    · refine ⟨r, ?_, by rw [World.guested_guest, if_pos rfl]; exact nofun⟩
      rcases World.mem_readies.mp h with ⟨hlock, hne, -⟩ | ⟨rfl, -⟩
      · rw [World.guested_roomOf, if_neg hne]
        exact hw.filed_room hj.2.1 (.inl (w.lock_eq_some.mp hlock).1)
      · rw [World.guested_roomOf, if_pos rfl]
  | disconnect x hx =>
    refine absurd h (World.notMem_farewell hlist ?_)
    rintro ⟨⟩
    cases hmsg

end Sent

end PongPp.Signaling
