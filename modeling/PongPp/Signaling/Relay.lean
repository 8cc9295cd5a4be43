import PongPp.Signaling.Seats
import PongPp.Signaling.Sent

/-!
# Relays and listed rooms

As long as seats and players agree, a relayed message stays in the room it was sent from and
can be answered, and a listed room is one whose host waits alone in it. The pair that a `JOIN`
of a listed room makes is `Locked`: whatever the others do, they cannot come between the two.
-/

namespace PongPp.Signaling

open Function Lib

/-! ## Relays -/

/-- A delivered `RELAY` comes from another player in the recipient's room, which the recipient's
own `RELAY` would reach. -/
def Mutual (w : World) : Prop :=
  ∀ l q body, (q, .text (.relay body)) ∈ sent l w →
    ∃ p m, l.2 = .message p m ∧ parseVerb m = .relay body ∧ q ≠ p ∧
      (∃ r, w.roomOf p = some r ∧ w.roomOf q = some r) ∧
      ∀ o' m' body', parseVerb m' = .relay body' →
        (p, .text (.relay body')) ∈ sent (o', .message q m') w

/-- **Relay isolation and mutuality**, as long as nobody takes a second seat from inside a
room. -/
theorem relay_mutual (ls : List Label) (hg : Guarded step Settled ls .init) :
    Mutual (run step ls .init) := by
  obtain ⟨hw, ht⟩ := Tidy.run hg
  intro l q body hq
  obtain ⟨p, m, hl, -, hv, hpeer⟩ := (relay_mem_sent hw).mp hq
  obtain ⟨hne, r, hpr, hqr⟩ := ht.peer_room hpeer
  refine ⟨p, m, hl, hv, hne, ⟨r, hpr, hqr⟩, fun o' m' body' hv' => ?_⟩
  exact (relay_mem_sent hw).mpr
    ⟨q, m', rfl, hw.registered q r hqr, hv', hw.peerOf_eq hqr hpr hne.symm⟩

/-- A host and its guest. -/
theorem relay_mutual_pair :
    Mutual (run step [(.id, .connect), (.id, .connect), (.id, .message 0 (ascii "CREATE")),
      (.id, .message 1 (ascii "JOIN 1"))] .init) :=
  relay_mutual _ (by decide)

/-- A host that creates again still gets what the guest of its first room relays. -/
theorem relay_hostMoved : ¬ ∀ ls : List Label, Mutual (run step ls .init) := by
  intro h
  obtain ⟨p, m, hl, -, -, ⟨r, hp, hq⟩, -⟩ := h [(.id, .connect), (.id, .connect),
    (.id, .message 0 (ascii "CREATE")), (.id, .message 1 (ascii "JOIN 1")),
    (.id, .message 0 (ascii "CREATE"))] (.id, .message 1 (ascii "RELAY hi")) 0 (ascii "hi")
    (by decide)
  cases hl
  have hsame := hp.trans hq.symm
  revert hsame
  decide

/-! ## Pairs that nobody can part -/

/-- `p` disconnects, creates or joins. -/
def Event.moves (p : PlayerId) : Event → Bool
  | .connect => false
  | .message x m => x = p && (parseVerb m).seats
  | .disconnect x => x = p

/-- `h` hosts `r` with guest `g`, and neither has a seat elsewhere. -/
structure Locked (h g : PlayerId) (r : RoomId) (w : World) : Prop where
  ne : g ≠ h
  host : (w.room r).host = some h
  guest : (w.room r).guest = some g
  host_room : w.roomOf h = some r
  guest_room : w.roomOf g = some r
  only : ∀ s, w.Held s → ∀ x, x = h ∨ x = g → (w.room s).Has x → s = r

namespace Locked

variable {w : World} {h g : PlayerId} {r : RoomId}

theorem emit (hlock : Locked h g r w) (ps : List (PlayerId × Packet)) :
    Locked h g r (w.emit ps) :=
  ⟨hlock.1, hlock.2, hlock.3, hlock.4, hlock.5, hlock.6⟩

theorem hosted (hlock : Locked h g r w) (hw : Wf w) {x : PlayerId} (hxh : h ≠ x) (hxg : g ≠ x) :
    Locked h g r (w.hosted x) := by
  have hr := World.hosted_room_old (p := x) (hw.room_lt h r hlock.host_room)
  refine ⟨hlock.ne, by rw [hr]; exact hlock.host, by rw [hr]; exact hlock.guest, ?_, ?_, ?_⟩
  · rw [World.hosted_roomOf, if_neg hxh]; exact hlock.host_room
  · rw [World.hosted_roomOf, if_neg hxg]; exact hlock.guest_room
  · intro s hs y hy hhas
    rcases hs.of_hosted with rfl | hs
    · rw [World.hosted_room_new] at hhas
      rcases hhas with h | h <;> cases h
      exact absurd hy (by simp [hxh.symm, hxg.symm])
    · rw [World.hosted_room_old (hs.lt hw)] at hhas
      exact hlock.only s hs y hy hhas

theorem guested (hlock : Locked h g r w) (hw : Wf w) {x : PlayerId} {c : RoomCode} {s : RoomId}
    (hj : w.Joinable c s) (hxh : h ≠ x) (hxg : g ≠ x) : Locked h g r (w.guested x s) := by
  have hsr : r ≠ s := hw.guest_dead hj.2.2 hlock.guest_room hlock.guest
  refine ⟨hlock.ne, ?_, ?_, ?_, ?_, ?_⟩
  · rw [World.guested_host]; exact hlock.host
  · rw [World.guested_guest, if_neg hsr]; exact hlock.guest
  · rw [World.guested_roomOf, if_neg hxh]; exact hlock.host_room
  · rw [World.guested_roomOf, if_neg hxg]; exact hlock.guest_room
  · intro s' hs' y hy hhas
    replace hs' := hs'.of_guested hj
    rw [Room.Has, World.guested_host, World.guested_guest] at hhas
    split at hhas
    · rcases hhas with hh | hh
      · exact hlock.only s' hs' y hy (.inl hh)
      · cases hh
        exact absurd hy (by simp [hxh.symm, hxg.symm])
    · exact hlock.only s' hs' y hy hhas

theorem departed (hlock : Locked h g r w) (hw : Wf w) {x : PlayerId} (hxh : h ≠ x) (hxg : g ≠ x) :
    Locked h g r (w.departed x) := by
  -- who leaves is in another room, where neither of the two has a seat
  have stay : ∀ y, y = h ∨ y = g → w.roomOf y = some r → (w.departed x).roomOf y = some r := by
    intro y hy hyr
    rw [World.departed_roomOf, if_neg, hyr]
    rintro (rfl | hpeer)
    · exact absurd hy (by simp [hxh.symm, hxg.symm])
    · obtain ⟨s, hs, ho⟩ := Option.bind_eq_some_iff.mp hpeer
      obtain rfl := hlock.only s (.inr ⟨x, hs⟩) y hy (w.mem_otherPlayer ho).1
      rcases hw.seated x s hs with hx | hx
      · exact hxh (Option.some.inj (hlock.host.symm.trans hx))
      · exact hxg (Option.some.inj (hlock.guest.symm.trans hx))
  exact ⟨hlock.ne, hlock.host, hlock.guest, stay h (.inl rfl) hlock.host_room,
    stay g (.inr rfl) hlock.guest_room, fun s hs => hlock.only s (hs.of_departed hw).1⟩

theorem step (hlock : Locked h g r w) (hw : Wf w) {l : Label} (hh : l.2.moves h = false)
    (hg : l.2.moves g = false) : Locked h g r (step l w) := by
  refine step_rule hw (fun _ ps h => h.emit ps) fun w' ps he => ?_
  obtain ⟨o, e⟩ := l
  cases he with
  | connect =>
    obtain ⟨h₁, h₂, h₃, h₄, h₅, h₆⟩ := hlock
    refine ⟨h₁, h₂, h₃, by rwa [hw.roomOf_register], by rwa [hw.roomOf_register], ?_⟩
    intro s hs
    rw [World.Held, hw.roomOf_register] at hs
    exact h₆ s hs
  | create x m hx hv =>
    simp only [Event.moves, hv, Verb.seats, Bool.and_true, decide_eq_false_iff_not] at hh hg
    exact hlock.hosted hw (Ne.symm hh) (Ne.symm hg)
  | join x m body s hx hv hj =>
    simp only [Event.moves, hv, Verb.seats, Bool.and_true, decide_eq_false_iff_not] at hh hg
    exact hlock.guested hw hj (Ne.symm hh) (Ne.symm hg)
  | disconnect x hx =>
    simp only [Event.moves, decide_eq_false_iff_not] at hh hg
    exact hlock.departed hw (Ne.symm hh) (Ne.symm hg)
  | _ => exact hlock

theorem run {ls : List Label} (hlock : Locked h g r w) (hw : Wf w)
    (hls : ∀ l ∈ ls, l.2.moves h = false ∧ l.2.moves g = false) :
    Wf (run Signaling.step ls w) ∧ Locked h g r (run Signaling.step ls w) := by
  induction ls generalizing w with
  | nil => exact ⟨hw, hlock⟩
  | cons l ls ih =>
    obtain ⟨hl, hls⟩ := List.forall_mem_cons.mp hls
    exact ih (hlock.step hw hl.1 hl.2) (hw.step l) hls

theorem relay (hlock : Locked h g r w) (hw : Wf w) (o : Order) {m body : Bytes}
    (hv : parseVerb m = .relay body) :
    sent (o, .message h m) w = [(g, .text (.relay body))] ∧
      sent (o, .message g m) w = [(h, .text (.relay body))] := by
  obtain ⟨_, heh, -⟩ := step_effect hw (o, .message h m)
  obtain ⟨_, heg, -⟩ := step_effect hw (o, .message g m)
  exact ⟨(heh.of_relay (hw.registered h r hlock.host_room) hv
      (hw.peerOf_eq hlock.host_room hlock.guest_room hlock.ne)).2,
    (heg.of_relay (hw.registered g r hlock.guest_room) hv
      (hw.peerOf_eq hlock.guest_room hlock.host_room hlock.ne.symm)).2⟩

end Locked

/-! ## Listed rooms -/

/-- The `JOIN` `l` makes `g` the guest of `h` in `r`: both are told once, and they reach each
other until one of them disconnects, creates or joins. -/
structure Joins (w : World) (h g : PlayerId) (r : RoomId) (l : Label) : Prop where
  guest : ((step l w).room r).guest = some g
  room : (step l w).roomOf g = some r
  readyHost : (sent l w).count (h, .text .readyHost) = 1
  readyGuest : (sent l w).count (g, .text .readyGuest) = 1
  relays : ∀ later : List Label, (∀ l ∈ later, l.2.moves h = false ∧ l.2.moves g = false) →
    ∀ o m body, parseVerb m = .relay body →
      sent (o, .message h m) (run step later (step l w)) = [(g, .text (.relay body))] ∧
      sent (o, .message g m) (run step later (step l w)) = [(h, .text (.relay body))]

/-- Room `c` has a connected host, nobody else, and can be joined. -/
def Listed (w : World) (c : RoomCode) : Prop :=
  ∃ h r, w.rooms.lookup c = some r ∧ (w.room r).host = some h ∧ h ∈ w.players ∧
    w.roomOf h = some r ∧ (∀ q, w.roomOf q = some r ∨ (w.room r).Has q → q = h) ∧
    ∀ g ∈ w.players, g ≠ h → w.roomOf g = none →
      ∀ o m body, parseVerb m = .join body → parseCode body = c →
        Joins w h g r (o, .message g m)

/-- `Settled`, and no `CREATE` comes when the code counter has wrapped to the sentinel 0. -/
def Listable (l : Label) (w : World) : Prop :=
  Settled l w ∧
    match l.2 with
    | .message p m => p ∈ w.players → parseVerb m = .create → w.nextCode ≠ 0
    | _ => True

instance (l : Label) (w : World) : Decidable (Listable l w) :=
  match l with
  | (_, .message ..) => inferInstanceAs (Decidable (_ ∧ (_ → _ → _)))
  | (_, .connect) | (_, .disconnect _) => inferInstanceAs (Decidable (_ ∧ True))

/-- No room is filed under the sentinel. -/
def Coded (w : World) : Prop := ∀ c r, w.rooms.lookup c = some r → c ≠ 0

theorem Coded.step {w : World} (h : Coded w) (hw : Wf w) {l : Label} (hl : Listable l w) :
    Coded (step l w) := by
  refine step_rule hw (fun _ _ h => h) fun w' ps he => ?_
  obtain ⟨o, e⟩ := l
  cases he with
  | create p m hp hv =>
    intro c r hlook
    rcases World.lookup_hosted hlook with ⟨rfl, -⟩ | hlook
    · exact hl.2 hp hv
    · exact h c r hlook
  | disconnect p => exact fun c r hlook => h c r (World.lookup_departed hlook).1
  | _ => exact h

theorem joins_listed {w : World} (hw : Wf w) (ht : Tidy w) {h g : PlayerId} {r : RoomId}
    {m : Bytes} (o : Order) (hg : g ∈ w.players) (hne : g ≠ h) (hroom : w.roomOf g = none)
    (hhost : (w.room r).host = some h) (hh : w.roomOf h = some r)
    (htarget : w.joinTarget m = some r) : Joins w h g r (o, .message g m) := by
  obtain ⟨body, hv, hj⟩ := w.joinTarget_eq_some.mp htarget
  obtain ⟨w', he, hs⟩ := step_effect hw (o, .message g m)
  obtain ⟨rfl, hsent⟩ := he.of_join hg htarget
  have halive := (hw.alive_iff h).mpr (hw.registered h r hh)
  have hready : w.readies g r = [(h, .text .readyHost), (g, .text .readyGuest)] := by
    simp [World.readies, World.lock, hhost, halive, hne.symm, Option.filter]
  have hlist : ∀ k q, (∀ codes, k ≠ .text (.rooms codes)) →
      ((w.guested g r).roomList o).count (q, k) = 0 := fun k q hk =>
    List.count_eq_zero.mpr (World.notMem_roomList hk)
  have hlock : Locked h g r (w.guested g r) := by
    have ht' := ht.guested hj (.inl hroom)
    have hrh : (w.guested g r).roomOf h = some r := by
      rw [World.guested_roomOf, if_neg hne.symm, hh]
    have hrg : (w.guested g r).roomOf g = some r := by rw [World.guested_roomOf, if_pos rfl]
    refine ⟨hne, by rw [World.guested_host, hhost], by rw [World.guested_guest, if_pos rfl], hrh,
      hrg, ?_⟩
    rintro s hs x (rfl | rfl) hx
    · exact Option.some.inj ((ht' s hs x hx).symm.trans hrh)
    · exact Option.some.inj ((ht' s hs x hx).symm.trans hrg)
  refine ⟨?_, ?_, ?_, ?_, ?_⟩
  · rw [hs]; exact hlock.guest
  · rw [hs]; exact hlock.guest_room
  · rw [hsent, List.count_append, hlist _ _ (by simp), hready]
    simp
  · rw [hsent, List.count_append, hlist _ _ (by simp), hready]
    simp
  · intro later hlater o' m' body' hv'
    obtain ⟨hw', hlock'⟩ := Locked.run (w := step (o, .message g m) w)
      (by rw [hs]; exact hlock.emit _)
      (hw.step _) hlater
    exact hlock'.relay hw' o' hv'

/-- **Listing soundness**, as long as nobody takes a second seat from inside a room. -/
theorem listing_sound (ls : List Label) (hg : Guarded step Listable ls .init) (o : Order)
    (c : RoomCode) (hc : c ∈ (run step ls .init).joinableCodes o) :
    Listed (run step ls .init) c := by
  have hcoded : Coded (run step ls .init) :=
    Wf.init.run_guarded (fun _ _ hw hl h => h.step hw hl) hg
      fun c r hl => by simp [World.init] at hl
  obtain ⟨hw, ht⟩ := Tidy.run (hg.mono fun l w hl => hl.1)
  obtain ⟨r, hl, he⟩ := (World.mem_joinableCodes _ o).mp hc
  have hheld : (run step ls .init).Held r := .inl ⟨c, hl⟩
  obtain ⟨h, hhost⟩ := hw.has_host r (hw.filed_lt c r hl)
  have hh := ht r hheld h (.inl hhost)
  refine ⟨h, r, hl, hhost, hw.registered h r hh, hh, ?_, ?_⟩
  · intro q hq
    have hq : ((run step ls .init).room r).Has q := hq.elim (hw.seated q r) id
    rcases hq with hq | hq
    · exact Option.some.inj (hq.symm.trans hhost)
    · exact absurd rfl (hw.guest_dead he (ht r hheld q (.inr hq)) hq)
  · intro g hgmem hne hroom o' m body hv hcode
    apply joins_listed hw ht o' hgmem hne hroom hhost hh
    exact World.Joinable.target hv (hcode ▸ ⟨hcoded c r hl, hl, he⟩)

/-- A host that waits. -/
theorem listing_sound_waiting :
    Listed (run step [(.id, .connect), (.id, .connect), (.id, .message 0 (ascii "CREATE"))]
      .init) 1 :=
  listing_sound _ (by decide) .id 1 (by decide)

/-- A room that was left behind is listed and its host is gone. -/
theorem listing_ghost :
    ¬ ∀ (ls : List Label) (o : Order) (c : RoomCode),
      c ∈ (run step ls .init).joinableCodes o → Listed (run step ls .init) c := by
  intro h
  obtain ⟨host, r, -, -, hmem, -⟩ := h [(.id, .connect), (.id, .message 0 (ascii "CREATE")),
    (.id, .message 0 (ascii "CREATE")), (.id, .disconnect 0)] .id 1 (by decide)
  have hnil : (run step [(.id, .connect), (.id, .message 0 (ascii "CREATE")),
    (.id, .message 0 (ascii "CREATE")), (.id, .disconnect 0)] World.init).players = [] := by decide
  rw [hnil] at hmem
  exact List.not_mem_nil hmem

end PongPp.Signaling
