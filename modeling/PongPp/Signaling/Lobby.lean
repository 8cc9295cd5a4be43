import PongPp.Signaling.Sent

/-!
# What the lobby knows

Every operation that changes the joinable rooms broadcasts them after its last change, but for
one: a departing player stops to exist after `Cleanup` has sent its list. If it is still the
guest of a room that `Cleanup` does not delete, that room opens and nobody hears of it.
`lobby_fresh` says this is the only way the lobby is left with an old list.
-/

namespace PongPp.Signaling

open Function Lib

/-- The set `Rooms::JoinableCodes` lists. -/
def World.joinable (w : World) : Set RoomCode := {c | c ∈ w.joinableCodes .id}

/-- The last room list among the packets sent to `q`. -/
def lastRooms (q : PlayerId) (ps : List (PlayerId × Packet)) : Option (List RoomCode) :=
  (ps.filterMap fun
    | (x, .text (.rooms codes)) => if x = q then some codes else none
    | _ => none).getLast?

/-- If the step changes the joinable rooms, every player that is then in the lobby has been
sent a room list, and its last one is the new set. -/
def Fresh (l : Label) (w : World) : Prop :=
  (step l w).joinable ≠ w.joinable →
    ∀ q ∈ (step l w).players, (step l w).roomOf q = none →
      ∃ codes, lastRooms q (sent l w) = some codes ∧ {c | c ∈ codes} = (step l w).joinable

/-- `p` is the guest of a room that does not go with it. -/
def World.LeavesBehind (w : World) (p : PlayerId) : Prop :=
  ∃ c s, w.rooms.lookup c = some s ∧ (w.room s).guest = some p ∧
    ∀ r, w.roomOf p = some r → c ≠ (w.room r).code

/-- A player departs as the guest of a room that stays, while somebody is in the lobby or gets
there by this departure. -/
def Unheard (e : Event) (w : World) : Prop :=
  ∃ p, e = .disconnect p ∧ p ∈ w.players ∧ w.LeavesBehind p ∧
    ∃ q ∈ w.players, q ≠ p ∧ (w.roomOf q = none ∨ w.peerOf p = some q)

/-! ## Room lists -/

section LastRooms

variable {q : PlayerId} {ps : List (PlayerId × Packet)} {codes : List RoomCode}

theorem mem_rooms :
    codes ∈ ps.filterMap (fun
      | (x, .text (.rooms codes)) => if x = q then some codes else none
      | _ => none) ↔ (q, .text (.rooms codes)) ∈ ps := by
  rw [List.mem_filterMap]
  refine ⟨?_, ?_⟩
  · rintro ⟨⟨x, k⟩, hm, hk⟩
    split at hk
    · rename_i heq
      obtain ⟨hx, hcodes⟩ := Option.ite_none_right_eq_some.mp hk
      cases heq
      cases hcodes
      exact hx ▸ hm
    · cases hk
  · exact fun h => ⟨_, h, by simp⟩

theorem mem_of_lastRooms (h : lastRooms q ps = some codes) : (q, .text (.rooms codes)) ∈ ps :=
  mem_rooms.mp (List.mem_of_getLast? h)

theorem lastRooms_eq (hmem : (q, .text (.rooms codes)) ∈ ps)
    (hall : ∀ cs, (q, .text (.rooms cs)) ∈ ps → cs = codes) : lastRooms q ps = some codes := by
  have hne := List.ne_nil_of_mem (mem_rooms.mpr hmem)
  rw [lastRooms, List.getLast?_eq_some_getLast hne, hall _ (mem_rooms.mp (List.getLast_mem hne))]

end LastRooms

namespace World

variable {w : World} {p q : PlayerId} {c : RoomCode}

theorem mem_joinable :
    c ∈ w.joinable ↔ ∃ r, w.rooms.lookup c = some r ∧ w.expired (w.room r).guest = true :=
  w.mem_joinableCodes .id

theorem notMem_joinable {r : RoomId} (hl : w.rooms.lookup c = some r)
    (hg : (w.room r).guest = some p) (hp : w.alive p = true) : c ∉ w.joinable := by
  rw [mem_joinable]
  rintro ⟨r', hl', he⟩
  obtain rfl : r = r' := Option.some.inj (hl.symm.trans hl')
  have hdead := w.expired_iff.mp he p hg
  rw [hp] at hdead
  cases hdead

theorem joinableCodes_eq (o : Order) : {c | c ∈ w.joinableCodes o} = w.joinable := by
  ext c
  rw [mem_joinable]
  exact w.mem_joinableCodes o

/-- Who is in the lobby when a list is sent has the list of that moment. -/
theorem lastRooms_broadcast {o : Order} (ps qs : List (PlayerId × Packet)) (hq : q ∈ w.players)
    (hroom : w.roomOf q = none) (hps : ∀ cs, (q, .text (.rooms cs)) ∉ ps)
    (hqs : ∀ cs, (q, .text (.rooms cs)) ∉ qs) :
    lastRooms q (ps ++ (w.roomList o ++ qs)) = some (w.joinableCodes o) := by
  refine lastRooms_eq ?_ fun cs hcs => ?_
  · exact List.mem_append_right _
      (List.mem_append_left _ ((w.mem_roomList o).mpr ⟨hq, hroom, rfl⟩))
  · rcases List.mem_append.mp hcs with h | h
    · exact absurd h (hps cs)
    · rcases List.mem_append.mp h with h | h
      · have := ((w.mem_roomList o).mp h).2.2
        simpa [roomsLine] using this
      · exact absurd h (hqs cs)

/-- A room list in a farewell is the one of the state the departing player still exists in. -/
theorem rooms_mem_farewell {o : Order} {cs : List RoomCode}
    (h : (q, .text (.rooms cs)) ∈ w.farewell o p) : cs = (w.leaving p).joinableCodes o := by
  rcases mem_farewell h with ⟨-, h⟩ | h
  · cases h
  · have := ((mem_roomList _ o).mp h).2.2
    simpa [roomsLine] using this

theorem mem_roomsWithout {r : RoomId} :
    (w.roomsWithout p).lookup c = some r ↔
      w.rooms.lookup c = some r ∧ ∀ s, w.roomOf p = some s → c ≠ (w.room s).code := by
  refine ⟨?_, ?_⟩
  · exact fun h => lookup_departed (w := w) h
  · rintro ⟨hl, hne⟩
    unfold roomsWithout
    cases hr : w.roomOf p with
    | none => exact hl
    | some s => rw [AList.lookup_erase_ne (hne s hr)]; exact hl

/-- When `p` stops to exist, the rooms it is a guest of open. -/
theorem mem_joinable_departed :
    c ∈ (w.departed p).joinable ↔ c ∈ (w.leaving p).joinable ∨
      ∃ r, (w.roomsWithout p).lookup c = some r ∧ (w.room r).guest = some p := by
  have hexp : ∀ r, (w.departed p).expired ((w.departed p).room r).guest = true ↔
      (w.leaving p).expired ((w.leaving p).room r).guest = true ∨
        (w.room r).guest = some p := fun r => by
    simp only [expired_iff]
    show (∀ x, (w.room r).guest = some x → update w.alive p false x = false) ↔
      (∀ x, (w.room r).guest = some x → w.alive x = false) ∨ _
    cases (w.room r).guest with
    | none => simp
    | some x => by_cases hx : x = p <;> simp [hx]
  simp only [mem_joinable, hexp]
  refine ⟨?_, ?_⟩
  · rintro ⟨r, hl, h | h⟩
    · exact .inl ⟨r, hl, h⟩
    · exact .inr ⟨r, hl, h⟩
  · rintro (⟨r, hl, h⟩ | ⟨r, hl, h⟩)
    · exact ⟨r, hl, .inl h⟩
    · exact ⟨r, hl, .inr h⟩

theorem joinable_departed (h : ¬ w.LeavesBehind p) :
    (w.departed p).joinable = (w.leaving p).joinable := by
  ext c
  rw [mem_joinable_departed, or_iff_left]
  rintro ⟨r, hl, hg⟩
  obtain ⟨hl, hne⟩ := mem_roomsWithout.mp hl
  exact h ⟨c, r, hl, hg, hne⟩

/-- No list is sent only if the departure takes no room out. -/
theorem farewell_eq (o : Order) (h : w.roomsWithout p ≠ w.rooms) :
    w.farewell o p = (w.peerOf p).toList.map (fun q => (q, .text .peerLeft)) ++
      ((w.leaving p).roomList o ++ []) := by
  unfold roomsWithout at h
  unfold farewell
  cases hr : w.roomOf p with
  | none => simp [hr] at h
  | some r =>
    simp only [hr] at h ⊢
    have hsome : (w.rooms.lookup (w.room r).code).isSome = true := by
      rw [AList.lookup_isSome]
      by_contra hn
      exact h (AList.ext (List.kerase_of_notMem_keys hn))
    rw [if_pos hsome, List.append_nil]

theorem joinable_leaving (h : w.roomsWithout p = w.rooms) :
    (w.leaving p).joinable = w.joinable := by
  ext c
  rw [mem_joinable, mem_joinable, ← h]
  rfl

end World

/-! ## Freshness -/

namespace Wf

variable {w : World}

theorem joinable_register (hw : Wf w) : w.register.joinable = w.joinable := by
  ext c
  rw [World.mem_joinable, World.mem_joinable]
  refine exists_congr fun r => and_congr_right fun hl => ?_
  rw [World.expired_iff, World.expired_iff]
  refine forall_congr' fun x => forall_congr' fun hx => ?_
  have hlt := hw.seat_lt r (hw.filed_lt c r hl) x (.inr hx)
  show update w.alive w.nextPlayer true x = false ↔ _
  rw [update_of_ne hlt.ne]

theorem fresh (hw : Wf w) {l : Label} (h : ¬ Unheard l.2 w) : Fresh l w := by
  intro hne q hq hroom
  obtain ⟨w', he, hs⟩ := step_effect hw l
  rw [hs] at hne hq hroom ⊢
  replace hne : w'.joinable ≠ w.joinable := hne
  replace hq : q ∈ w'.players := hq
  replace hroom : w'.roomOf q = none := hroom
  suffices ∃ codes, lastRooms q (sent l w) = some codes ∧ {c | c ∈ codes} = w'.joinable from this
  generalize sent l w = ps at he ⊢
  obtain ⟨o, e⟩ := l
  cases he with
  | connect => exact absurd hw.joinable_register hne
  | create p m hp hv =>
    have hlast := World.lastRooms_broadcast (o := o) [] [(p, .text (.created w.nextCode))]
      hq hroom (by simp) (by simp)
    exact ⟨_, hlast, World.joinableCodes_eq o⟩
  | join p m body r hp hv hj =>
    have hlast := World.lastRooms_broadcast (o := o) [] (w.readies p r) hq hroom
      (by simp) (by simp [World.mem_readies])
    exact ⟨_, hlast, World.joinableCodes_eq o⟩
  | disconnect p hp =>
    have hqp := hw.nodup.mem_erase_iff.mp hq
    have hlobby : w.roomOf q = none ∨ w.peerOf p = some q := by
      rw [World.departed_roomOf] at hroom
      split at hroom
      · rename_i hor; exact .inr (hor.resolve_left hqp.1)
      · exact .inl hroom
    have hbehind : ¬ w.LeavesBehind p := fun hb =>
      h ⟨p, rfl, hp, hb, q, hqp.2, hqp.1, hlobby⟩
    rw [World.joinable_departed hbehind] at hne ⊢
    have hout : w.roomsWithout p ≠ w.rooms := fun heq => hne (World.joinable_leaving heq)
    have hleaving : (w.leaving p).roomOf q = none := by
      show (if w.peerOf p = some q then none else w.roomOf q) = none
      split
      · rfl
      · rename_i hn; exact hlobby.resolve_right hn
    rw [World.farewell_eq o hout]
    have hlast := World.lastRooms_broadcast (w := w.leaving p) (o := o)
      ((w.peerOf p).toList.map fun q => (q, .text .peerLeft)) [] hqp.2 hleaving (by simp) (by simp)
    exact ⟨_, hlast, World.joinableCodes_eq o⟩
  | _ => exact absurd rfl hne

theorem not_fresh (hw : Wf w) {l : Label} (h : Unheard l.2 w) : ¬ Fresh l w := by
  obtain ⟨o, e⟩ := l
  obtain ⟨p, rfl, hp, ⟨c, s, hl, hg, hne⟩, q, hq, hqp, hlobby⟩ := h
  obtain ⟨w', he, hs⟩ := step_effect hw (o, .disconnect p)
  obtain ⟨rfl, hsent⟩ := he.of_disconnect hp
  have halive := (hw.alive_iff p).mpr hp
  -- `c` opens with the departure, and no list sent before has it
  have hstays := World.mem_roomsWithout.mpr ⟨hl, hne⟩
  have hnew : c ∈ (w.departed p).joinable :=
    World.mem_joinable_departed.mpr (.inr ⟨s, hstays, hg⟩)
  intro hfresh
  rw [Fresh, hs] at hfresh
  obtain ⟨codes, hlast, hcodes⟩ := hfresh
    (fun heq => World.notMem_joinable hl hg halive (heq ▸ hnew))
    q (hw.nodup.mem_erase_iff.mpr ⟨hqp, hq⟩)
    (by
      rw [World.emit_roomOf, World.departed_roomOf]
      rcases hlobby with h | h
      · split
        · rfl
        · exact h
      · exact if_pos (.inr h))
  rw [hsent] at hlast
  have hcs := World.rooms_mem_farewell (mem_of_lastRooms hlast)
  have hc : c ∈ {c | c ∈ codes} := hcodes ▸ hnew
  rw [hcs, World.joinableCodes_eq] at hc
  exact World.notMem_joinable (w := w.leaving p) hstays hg halive hc

end Wf

/-- **Lobby freshness** in every reachable state: it fails just when a guest departs from under
a room that stays. -/
theorem lobby_fresh (ls : List Label) (l : Label) :
    Fresh l (run step ls .init) ↔ ¬ Unheard l.2 (run step ls .init) :=
  ⟨fun hf hu => (Wf.init.run ls).not_fresh hu hf, (Wf.init.run ls).fresh⟩

/-- A guest that created a room of its own departs, and the lobby is not told that the room it
came from is open. -/
theorem lobby_stale : ¬ ∀ (ls : List Label) (l : Label), Fresh l (run step ls .init) := by
  intro h
  let ls : List Label := [(.id, .connect), (.id, .connect), (.id, .connect),
    (.id, .message 0 (ascii "CREATE")), (.id, .message 1 (ascii "JOIN 1")),
    (.id, .message 1 (ascii "CREATE"))]
  have hbehind : (run step ls .init).LeavesBehind 1 := by
    refine ⟨1, 0, by decide, by decide, fun r hr => ?_⟩
    have hroom : (run step ls .init).roomOf 1 = some 1 := by decide
    obtain rfl := Option.some.inj (hr.symm.trans hroom)
    decide
  exact (Wf.init.run ls).not_fresh (l := (.id, .disconnect 1))
    ⟨1, rfl, by decide, hbehind, 2, by decide, by decide, .inl (by decide)⟩ (h ls _)

end PongPp.Signaling
