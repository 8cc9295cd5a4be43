import PongPp.Lib.Run
import PongPp.Signaling.Step

/-!
# Well-formed memory

`Wf` is what every reachable state satisfies, whatever the clients send: registered players
are the live ones, object identities are fresh, `rooms_` files a room under its code, and a
player's `room_` is a room it has a seat in. `step_effect` lists all a step can do, with
everything it writes; it is how the later modules look at a step.
-/

namespace PongPp.Signaling

open Function Lib

/-- `p` has a seat in the room. -/
abbrev Room.Has (room : Room) (p : PlayerId) : Prop := room.host = some p ∨ room.guest = some p

structure Wf (w : World) : Prop where
  alive_iff : ∀ p, w.alive p = true ↔ p ∈ w.players
  nodup : w.players.Nodup
  player_lt : ∀ p ∈ w.players, p < w.nextPlayer
  registered : ∀ p r, w.roomOf p = some r → p ∈ w.players
  seated : ∀ p r, w.roomOf p = some r → (w.room r).Has p
  room_lt : ∀ p r, w.roomOf p = some r → r < w.nextRoom
  filed_lt : ∀ c r, w.rooms.lookup c = some r → r < w.nextRoom
  filed_code : ∀ c r, w.rooms.lookup c = some r → (w.room r).code = c
  has_host : ∀ r < w.nextRoom, ∃ h, (w.room r).host = some h
  seat_lt : ∀ r < w.nextRoom, ∀ p, (w.room r).Has p → p < w.nextPlayer

namespace Wf

variable {w : World} {p : PlayerId}

theorem not_alive (h : Wf w) (hp : p ∉ w.players) : w.alive p = false := by
  simpa using mt (h.alive_iff p).mp hp

theorem notMem_of_expired (h : Wf w) {q : Option PlayerId} (he : w.expired q = true)
    (hq : q = some p) : p ∉ w.players := fun hp => by
  have hdead := w.expired_iff.mp he p hq
  rw [(h.alive_iff p).mpr hp] at hdead
  cases hdead

end Wf

/-! ## All a step can do -/

/-- The ways a step goes: the event, the state before its writes, and the writes. -/
inductive Effect (w : World) (o : Order) : Event → World → List (PlayerId × Packet) → Prop where
  | connect : Effect w o .connect w.register []
  | goneMessage (p : PlayerId) (m : Bytes) : p ∉ w.players → Effect w o (.message p m) w []
  | goneDisconnect (p : PlayerId) : p ∉ w.players → Effect w o (.disconnect p) w []
  | list (p : PlayerId) (m : Bytes) : p ∈ w.players → parseVerb m = .list →
      Effect w o (.message p m) w [(p, .text (w.roomsLine o))]
  | create (p : PlayerId) (m : Bytes) : p ∈ w.players → parseVerb m = .create →
      Effect w o (.message p m) (w.hosted p)
        ((w.hosted p).roomList o ++ [(p, .text (.created w.nextCode))])
  | join (p : PlayerId) (m body : Bytes) (r : RoomId) : p ∈ w.players →
      parseVerb m = .join body → w.Joinable (parseCode body) r →
      Effect w o (.message p m) (w.guested p r) ((w.guested p r).roomList o ++ w.readies p r)
  | joinFailed (p : PlayerId) (m body : Bytes) : p ∈ w.players → parseVerb m = .join body →
      (∀ r, ¬ w.Joinable (parseCode body) r) →
      Effect w o (.message p m) w [(p, .text (.error .joinFailed))]
  | relay (p : PlayerId) (m body : Bytes) (q : PlayerId) : p ∈ w.players →
      parseVerb m = .relay body → w.peerOf p = some q →
      Effect w o (.message p m) w [(q, .text (.relay body))]
  | relayFailed (p : PlayerId) (m body : Bytes) : p ∈ w.players → parseVerb m = .relay body →
      w.peerOf p = none → Effect w o (.message p m) w [(p, .text (.error .notInRoom))]
  | unknown (p : PlayerId) (m : Bytes) : p ∈ w.players → parseVerb m = .unknown →
      Effect w o (.message p m) w [(p, .text (.error .unknownVerb))]
  | disconnect (p : PlayerId) : p ∈ w.players →
      Effect w o (.disconnect p) (w.departed p) (w.farewell o p)

theorem Effect.wire_eq {w w' : World} {o : Order} {e : Event} {ps : List (PlayerId × Packet)}
    (h : Effect w o e w' ps) : w'.wire = w.wire := by
  cases h <;> rfl

theorem exists_effect {w : World} (o : Order) {p : PlayerId} (hp : p ∈ w.players) (m : Bytes) :
    ∃ w' ps, Effect w o (.message p m) w' ps := by
  cases hv : parseVerb m with
  | list => exact ⟨_, _, .list p m hp hv⟩
  | create => exact ⟨_, _, .create p m hp hv⟩
  | join body =>
    by_cases hj : ∃ r, w.Joinable (parseCode body) r
    · obtain ⟨r, hr⟩ := hj
      exact ⟨_, _, .join p m body r hp hv hr⟩
    · exact ⟨_, _, .joinFailed p m body hp hv (not_exists.mp hj)⟩
  | relay body =>
    cases hq : w.peerOf p with
    | none => exact ⟨_, _, .relayFailed p m body hp hv hq⟩
    | some q => exact ⟨_, _, .relay p m body q hp hv hq⟩
  | unknown => exact ⟨_, _, .unknown p m hp hv⟩

theorem Effect.onMessage_eq {w w' : World} {o : Order} {p : PlayerId} {m : Bytes}
    {ps : List (PlayerId × Packet)} (he : Effect w o (.message p m) w' ps) (hp : p ∈ w.players) :
    w.onMessage o p m = w'.emit ps ∧ w'.players = w.players := by
  unfold World.onMessage
  cases he with
  | goneMessage => contradiction
  | list _ _ _ hv => rw [hv]; exact ⟨rfl, rfl⟩
  | create _ _ _ hv => rw [hv]; exact ⟨w.handleCreate_eq o p, rfl⟩
  | join _ _ body r _ hv hj => rw [hv]; exact ⟨w.handleJoin_eq o hj, rfl⟩
  | joinFailed _ _ body _ hv hn => rw [hv]; exact ⟨w.handleJoin_fails o hn, rfl⟩
  | relay _ _ body q _ hv hq => rw [hv]; exact ⟨by simp only [World.handleRelay_eq, hq]; rfl, rfl⟩
  | relayFailed _ _ body _ hv hq =>
    rw [hv]; exact ⟨by simp only [World.handleRelay_eq, hq]; rfl, rfl⟩
  | unknown _ _ _ hv => rw [hv]; exact ⟨rfl, rfl⟩

theorem Effect.step_eq {w w' : World} (hw : Wf w) {l : Label} {ps : List (PlayerId × Packet)}
    (he : Effect w l.1 l.2 w' ps) : step l w = w'.emit ps := by
  obtain ⟨o, e⟩ := l
  cases e with
  | connect =>
    cases he
    simp [step]
  | message p m =>
    by_cases hp : p ∈ w.players
    · obtain ⟨heq, hmem⟩ := he.onMessage_eq hp
      have hin : p ∈ (w.onMessage o p m).players := by rw [heq]; exact hmem ▸ hp
      simp only [step]
      rw [World.handle_eq _ ((hw.alive_iff p).mpr hp) hin, heq]
    · cases he with
      | goneMessage => simp [step, World.handle_dead w (hw.not_alive hp)]
      | _ => contradiction
  | disconnect p =>
    cases he with
    | disconnect _ hp => exact w.handle_cleanup o ((hw.alive_iff p).mpr hp) hw.nodup
    | goneDisconnect _ hp => simp [step, World.handle_dead w (hw.not_alive hp)]

theorem step_effect {w : World} (hw : Wf w) (l : Label) :
    ∃ w', Effect w l.1 l.2 w' (sent l w) ∧ step l w = w'.emit (sent l w) := by
  suffices h : ∃ w' ps, Effect w l.1 l.2 w' ps by
    obtain ⟨w', ps, he⟩ := h
    have hs := he.step_eq hw
    have hsent : sent l w = ps := by
      rw [sent, hs, World.emit_wire, he.wire_eq, List.drop_left]
    exact ⟨w', hsent ▸ he, hsent ▸ hs⟩
  obtain ⟨o, e⟩ := l
  cases e with
  | connect => exact ⟨_, _, .connect⟩
  | message p m =>
    by_cases hp : p ∈ w.players
    · exact exists_effect o hp m
    · exact ⟨_, _, .goneMessage p m hp⟩
  | disconnect p =>
    by_cases hp : p ∈ w.players
    · exact ⟨_, _, .disconnect p hp⟩
    · exact ⟨_, _, .goneDisconnect p hp⟩

/-- **Step rule.** What holds after every effect, whatever is written then, holds after the
step. -/
theorem step_rule {w : World} (hw : Wf w) {l : Label} {P : World → Prop}
    (hemit : ∀ w' ps, P w' → P (w'.emit ps))
    (h : ∀ w' ps, Effect w l.1 l.2 w' ps → P w') : P (step l w) := by
  obtain ⟨w', he, hs⟩ := step_effect hw l
  rw [hs]
  exact hemit w' _ (h w' _ he)

namespace Effect

variable {w w' : World} {o : Order} {p : PlayerId} {m : Bytes} {ps : List (PlayerId × Packet)}

theorem of_join {r : RoomId} (he : Effect w o (.message p m) w' ps) (hp : p ∈ w.players)
    (hr : w.joinTarget m = some r) :
    w' = w.guested p r ∧ ps = (w.guested p r).roomList o ++ w.readies p r := by
  obtain ⟨body, hv, hj⟩ := w.joinTarget_eq_some.mp hr
  cases he with
  | goneMessage => contradiction
  | join _ _ body' s _ hv' hj' =>
    have : s = r := Option.some.inj ((hj'.target hv').symm.trans hr)
    exact ⟨this ▸ rfl, this ▸ rfl⟩
  | joinFailed _ _ body' _ hv' hn =>
    rw [hv] at hv'
    cases hv'
    exact absurd hj (hn r)
  | _ => simp_all

theorem of_relay {body : Bytes} {q : PlayerId} (he : Effect w o (.message p m) w' ps)
    (hp : p ∈ w.players) (hv : parseVerb m = .relay body) (hq : w.peerOf p = some q) :
    w' = w ∧ ps = [(q, .text (.relay body))] := by
  cases he with
  | goneMessage => contradiction
  | relay _ _ body' q' _ hv' hq' =>
    rw [hv] at hv'
    rw [hq] at hq'
    cases hv'
    cases hq'
    exact ⟨rfl, rfl⟩
  | _ => simp_all

theorem of_disconnect (he : Effect w o (.disconnect p) w' ps) (hp : p ∈ w.players) :
    w' = w.departed p ∧ ps = w.farewell o p := by
  cases he with
  | goneDisconnect => contradiction
  | disconnect => exact ⟨rfl, rfl⟩

end Effect

/-! ## Every update keeps the memory well-formed -/

namespace Wf

variable {w : World}

theorem emit (h : Wf w) (ps : List (PlayerId × Packet)) : Wf (w.emit ps) := by
  cases h; constructor <;> assumption

theorem init : Wf World.init where
  alive_iff p := by simp [World.init]
  nodup := List.nodup_nil
  player_lt p hp := by simp [World.init] at hp
  registered p r h := by simp [World.init] at h
  seated p r h := by simp [World.init] at h
  room_lt p r h := by simp [World.init] at h
  filed_lt c r h := by simp [World.init] at h
  filed_code c r h := by simp [World.init] at h
  has_host r h := by simp [World.init] at h
  seat_lt r h := by simp [World.init] at h

theorem roomless (h : Wf w) {p : PlayerId} (hp : p ∉ w.players) : w.roomOf p = none := by
  cases hr : w.roomOf p with
  | none => rfl
  | some r => exact absurd (h.registered p r hr) hp

theorem fresh_notMem (h : Wf w) : w.nextPlayer ∉ w.players := fun hm =>
  absurd (h.player_lt _ hm) (lt_irrefl _)

theorem roomOf_register (h : Wf w) : w.register.roomOf = w.roomOf := by
  show update w.roomOf w.nextPlayer none = w.roomOf
  rw [← h.roomless h.fresh_notMem, update_eq_self]

theorem register (h : Wf w) : Wf w.register := by
  have hnew := h.fresh_notMem
  have hsame : update w.roomOf w.nextPlayer none = w.roomOf := h.roomOf_register
  constructor <;> simp only [World.register, List.insert_of_not_mem hnew, hsame]
  · intro p
    by_cases hp : p = w.nextPlayer
    · simp [hp]
    · simp [hp, h.alive_iff]
  · exact List.nodup_cons.mpr ⟨hnew, h.nodup⟩
  · intro p hp
    rcases List.mem_cons.mp hp with rfl | hp
    · exact Nat.lt_succ_self _
    · exact Nat.lt_succ_of_lt (h.player_lt p hp)
  · exact fun p r hr => List.mem_cons_of_mem _ (h.registered p r hr)
  · exact h.seated
  · exact h.room_lt
  · exact h.filed_lt
  · exact h.filed_code
  · exact h.has_host
  · exact fun r hr p hp => Nat.lt_succ_of_lt (h.seat_lt r hr p hp)

theorem hosted (h : Wf w) {p : PlayerId} (hp : p ∈ w.players) : Wf (w.hosted p) := by
  have split_lt : ∀ r, r < (w.hosted p).nextRoom → r = w.nextRoom ∨ r < w.nextRoom :=
    fun r hr => (Nat.lt_succ_iff_lt_or_eq.mp hr).symm
  refine ⟨h.alive_iff, h.nodup, h.player_lt, ?_, ?_, ?_, ?_, ?_, ?_, ?_⟩
  · intro q r hr
    rcases World.roomOf_hosted hr with ⟨rfl, -⟩ | ⟨-, hr⟩
    · exact hp
    · exact h.registered q r hr
  · intro q r hr
    rcases World.roomOf_hosted hr with ⟨rfl, rfl⟩ | ⟨-, hr⟩
    · rw [World.hosted_room_new]; exact .inl rfl
    · rw [World.hosted_room_old (h.room_lt q r hr)]; exact h.seated q r hr
  · intro q r hr
    rcases World.roomOf_hosted hr with ⟨-, rfl⟩ | ⟨-, hr⟩
    · exact Nat.lt_succ_self _
    · exact Nat.lt_succ_of_lt (h.room_lt q r hr)
  · intro c r hl
    rcases World.lookup_hosted hl with ⟨-, rfl⟩ | hl
    · exact Nat.lt_succ_self _
    · exact Nat.lt_succ_of_lt (h.filed_lt c r hl)
  · intro c r hl
    rcases World.lookup_hosted hl with ⟨rfl, rfl⟩ | hl
    · rw [World.hosted_room_new]
    · rw [World.hosted_room_old (h.filed_lt c r hl)]; exact h.filed_code c r hl
  · intro r hr
    rcases split_lt r hr with rfl | hr
    · exact ⟨p, by rw [World.hosted_room_new]⟩
    · rw [World.hosted_room_old hr]; exact h.has_host r hr
  · intro r hr q hq
    rcases split_lt r hr with rfl | hr
    · rw [World.hosted_room_new] at hq
      rcases hq with hq | hq <;> cases hq
      exact h.player_lt p hp
    · rw [World.hosted_room_old hr] at hq; exact h.seat_lt r hr q hq

/-- The seat a guest takes was held by no live player. -/
theorem guest_dead (h : Wf w) {q : PlayerId} {r s : RoomId}
    (he : w.expired (w.room r).guest = true) (hq : w.roomOf q = some s)
    (hg : (w.room s).guest = some q) : s ≠ r := by
  rintro rfl
  exact h.notMem_of_expired he hg (h.registered q s hq)

theorem guested (h : Wf w) {p : PlayerId} {c : RoomCode} {r : RoomId} (hp : p ∈ w.players)
    (hj : w.Joinable c r) : Wf (w.guested p r) := by
  obtain ⟨-, hl, he⟩ := hj
  refine ⟨h.alive_iff, h.nodup, h.player_lt, ?_, ?_, ?_, h.filed_lt, ?_, ?_, ?_⟩
  · intro q s hs
    rcases World.roomOf_guested hs with ⟨rfl, -⟩ | ⟨-, hs⟩
    · exact hp
    · exact h.registered q s hs
  · intro q s hs
    rcases World.roomOf_guested hs with ⟨rfl, rfl⟩ | ⟨-, hs⟩
    · exact .inr (by rw [World.guested_guest, if_pos rfl])
    · rcases h.seated q s hs with hq | hq
      · exact .inl (by rwa [World.guested_host])
      · exact .inr (by rwa [World.guested_guest, if_neg (h.guest_dead he hs hq)])
  · intro q s hs
    rcases World.roomOf_guested hs with ⟨-, rfl⟩ | ⟨-, hs⟩
    · exact h.filed_lt c s hl
    · exact h.room_lt q s hs
  · intro c' s hs; rw [World.guested_code]; exact h.filed_code c' s hs
  · intro s hs; rw [World.guested_host]; exact h.has_host s hs
  · intro s hs q hq
    rw [Room.Has, World.guested_host, World.guested_guest] at hq
    split at hq
    · rcases hq with hq | hq
      · exact h.seat_lt s hs q (.inl hq)
      · cases hq; exact h.player_lt p hp
    · exact h.seat_lt s hs q hq

theorem departed (h : Wf w) (p : PlayerId) : Wf (w.departed p) := by
  have hmem : ∀ q, q ∈ (w.departed p).players ↔ q ≠ p ∧ q ∈ w.players := fun q =>
    h.nodup.mem_erase_iff
  refine ⟨?_, h.nodup.erase p, ?_, ?_, ?_, ?_, ?_, ?_, h.has_host, h.seat_lt⟩
  · intro q
    rw [hmem]
    by_cases hq : q = p
    · simp [World.departed, hq]
    · simp [World.departed, World.cleaned, hq, h.alive_iff]
  · exact fun q hq => h.player_lt q ((hmem q).mp hq).2
  · intro q r hr
    obtain ⟨hne, -, hr⟩ := World.roomOf_departed hr
    exact (hmem q).mpr ⟨hne, h.registered q r hr⟩
  · exact fun q r hr => h.seated q r (World.roomOf_departed hr).2.2
  · exact fun q r hr => h.room_lt q r (World.roomOf_departed hr).2.2
  · exact fun c r hl => h.filed_lt c r (World.lookup_departed hl).1
  · exact fun c r hl => h.filed_code c r (World.lookup_departed hl).1

theorem effect (h : Wf w) {o : Order} {e : Event} {w' : World} {ps : List (PlayerId × Packet)}
    (he : Effect w o e w' ps) : Wf w' := by
  cases he with
  | connect => exact h.register
  | create p m hp => exact h.hosted hp
  | join p m body r hp _ hj => exact h.guested hp hj
  | disconnect p => exact h.departed p
  | _ => exact h

theorem step (h : Wf w) (l : Label) : Wf (step l w) :=
  step_rule h (fun _ ps h => h.emit ps) fun _ _ he => h.effect he

theorem run (h : Wf w) (ls : List Label) : Wf (run Signaling.step ls w) :=
  run_inv (fun l _ h => h.step l) ls h

section Rules

variable {I : World → Prop}

/-- **Run rule** of the server: a step may rely on a well-formed world. -/
theorem run_keeps (hw : Wf w) (hstep : ∀ l w, Wf w → I w → I (Signaling.step l w))
    (ls : List Label) (h : I w) : I (Lib.run Signaling.step ls w) :=
  (run_inv (I := fun w => Wf w ∧ I w)
    (fun l w hw => ⟨hw.1.step l, hstep l w hw.1 hw.2⟩) ls ⟨hw, h⟩).2

/-- **Guarded run rule** of the server. -/
theorem run_guarded {G : Label → World → Prop} (hw : Wf w)
    (hstep : ∀ l w, Wf w → G l w → I w → I (Signaling.step l w)) {ls : List Label}
    (hg : Guarded Signaling.step G ls w) (h : I w) : I (Lib.run Signaling.step ls w) :=
  (run_inv_guarded (I := fun w => Wf w ∧ I w)
    (fun l w hl hw => ⟨hw.1.step l, hstep l w hw.1 hl hw.2⟩) hg ⟨hw, h⟩).2

end Rules

/-! ## Everyone in a room is the other's peer -/

theorem peerOf_eq (h : Wf w) {p q : PlayerId} {r : RoomId} (hp : w.roomOf p = some r)
    (hq : w.roomOf q = some r) (hne : q ≠ p) : w.peerOf p = some q := by
  have hal := (h.alive_iff q).mpr (h.registered q r hq)
  rw [World.peerOf, hp]
  apply w.otherPlayer_eq hal hne
  rcases h.seated q r hq with hqh | hqg
  · exact .inl hqh
  · rcases h.seated p r hp with hph | hpg
    · exact .inr ⟨hph, hqg⟩
    · rw [hpg] at hqg; exact absurd (Option.some.inj hqg).symm hne

theorem left_departed (h : Wf w) {p q : PlayerId} {r s : RoomId} (hp : w.roomOf p = some r)
    (hq : (w.departed p).roomOf q = some s) : s ≠ r := by
  rintro rfl
  obtain ⟨hne, hnp, hq⟩ := World.roomOf_departed hq
  exact hnp (h.peerOf_eq hp hq hne)

end Wf

end PongPp.Signaling
