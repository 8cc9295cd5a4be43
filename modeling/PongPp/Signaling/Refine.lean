import Mathlib.Data.UInt
import PongPp.Signaling.Lobby
import PongPp.Signaling.Matchmaker
import PongPp.Signaling.Membership
import PongPp.Signaling.Seats

/-!
# The server is a matchmaker

`World.abs` reads the abstract matchmaker off the server's memory: a room with a live guest
plays, one without waits. As long as clients send `CREATE` and `JOIN` from the lobby only, every
event of the server is the matchmaker's action and tells every player exactly what the
matchmaker says (`matchmaker_refined`).
-/

namespace PongPp.Signaling

open Function Lib

/-! ## What an event stands for -/

def Verb.action (p : PlayerId) : Verb → Action PlayerId RoomCode Bytes
  | .list => .list p
  | .create => .create p
  | .join body => .join p (parseCode body)
  | .relay body => .relay p body
  | .unknown => .unknown p

/-- The action of an event; nothing, if the client is not connected. -/
def act : Label → World → Option (Action PlayerId RoomCode Bytes)
  | (_, .connect), w => some (.connect w.nextPlayer)
  | (_, .message p m), w => if p ∈ w.players then some ((parseVerb m).action p) else none
  | (_, .disconnect p), w => if p ∈ w.players then some (.disconnect p) else none

namespace Matchmaker

noncomputable def stepOpt (a : Option (Action PlayerId RoomCode Bytes))
    (m : Matchmaker PlayerId RoomCode) : Matchmaker PlayerId RoomCode :=
  a.elim m m.step

noncomputable def toldOpt (a : Option (Action PlayerId RoomCode Bytes))
    (m : Matchmaker PlayerId RoomCode) (q : PlayerId) : List (Notice RoomCode Bytes) :=
  a.elim [] fun a => m.told a q

end Matchmaker

/-- A packet says a notice; a room list names each code once. -/
inductive Says : Packet → Notice RoomCode Bytes → Prop where
  | rooms {codes : List RoomCode} : codes.Nodup →
      Says (.text (.rooms codes)) (.rooms {c | c ∈ codes})
  | created (c : RoomCode) : Says (.text (.created c)) (.created c)
  | readyHost : Says (.text .readyHost) .readyHost
  | readyGuest : Says (.text .readyGuest) .readyGuest
  | relay (body : Bytes) : Says (.text (.relay body)) (.relay body)
  | peerLeft : Says (.text .peerLeft) .peerLeft
  | joinFailed : Says (.text (.error .joinFailed)) .joinFailed
  | notInRoom : Says (.text (.error .notInRoom)) .notInRoom
  | unknownVerb : Says (.text (.error .unknownVerb)) .unknownVerb

/-- Every player gets what it is to be told. -/
def Delivers (ps : List (PlayerId × Packet))
    (told : PlayerId → List (Notice RoomCode Bytes)) : Prop :=
  ∀ q, List.Forall₂ Says (inbox q ps) (told q)

/-! ## The abstraction -/

def World.abs (w : World) : Matchmaker PlayerId RoomCode where
  lobby := {p | p ∈ w.players ∧ w.roomOf p = none}
  waiting c := (w.rooms.lookup c).bind fun r =>
    if w.expired (w.room r).guest then (w.room r).host else none
  playing c := (w.rooms.lookup c).bind fun r =>
    (w.room r).host.bind fun h => (w.lock (w.room r).guest).map fun g => (h, g)
  next := w.nextCode

/-- All invariants of a run in which seats are taken from the lobby. -/
structure Orderly (w : World) : Prop where
  wf : Wf w
  tidy : Tidy w
  apart : Apart w
  filed : Filed w

namespace Orderly

variable {w : World} {p q h g : PlayerId} {r : RoomId} {c : RoomCode}

theorem of_emit {ps : List (PlayerId × Packet)} (hw : Orderly (w.emit ps)) : Orderly w := by
  obtain ⟨⟨⟩, ht, ha, ⟨⟩⟩ := hw
  exact ⟨⟨‹_›, ‹_›, ‹_›, ‹_›, ‹_›, ‹_›, ‹_›, ‹_›, ‹_›, ‹_›⟩, ht, ha, ⟨‹_›, ‹_›, ‹_›, ‹_›⟩⟩

theorem step (hw : Orderly w) {l : Label} (hd : Disciplined l w) (hc : CodeLeft l w) :
    Orderly (step l w) :=
  ⟨hw.wf.step l, hw.tidy.step hw.wf (hd.fromLobby.settled l w),
    hw.apart.step hw.wf hw.tidy hd.fromLobby, hw.filed.step hw.wf hc⟩

theorem filed_room (hw : Orderly w) (hl : w.rooms.lookup c = some r) (hp : (w.room r).Has p) :
    w.roomOf p = some r := hw.tidy r (.inl ⟨c, hl⟩) p hp

/-- A guest of a filed room is alive, so its seat is free only when it is empty. -/
theorem expired_iff (hw : Orderly w) (hl : w.rooms.lookup c = some r) :
    w.expired (w.room r).guest = true ↔ (w.room r).guest = none := by
  rw [World.expired_iff]
  cases hg : (w.room r).guest with
  | none => simp
  | some g =>
    have hroom := hw.filed_room hl (.inr hg)
    have halive := (hw.wf.alive_iff g).mpr (hw.wf.registered g r hroom)
    simp [halive]

theorem waiting_iff (hw : Orderly w) :
    w.abs.waiting c = some h ↔
      ∃ r, w.rooms.lookup c = some r ∧ (w.room r).guest = none ∧ (w.room r).host = some h := by
  simp only [World.abs, Option.bind_eq_some_iff]
  refine exists_congr fun r => and_congr_right fun hl => ?_
  simp [← hw.expired_iff hl]

theorem playing_iff (hw : Orderly w) :
    w.abs.playing c = some (h, g) ↔
      ∃ r, w.rooms.lookup c = some r ∧ (w.room r).host = some h ∧ (w.room r).guest = some g := by
  simp only [World.abs, Option.bind_eq_some_iff, Option.map_eq_some_iff, World.lock_eq_some]
  refine exists_congr fun r => and_congr_right fun hl => ?_
  refine ⟨?_, ?_⟩
  · rintro ⟨h', hh, g', ⟨hg, -⟩, heq⟩
    cases heq
    exact ⟨hh, hg⟩
  · rintro ⟨hh, hg⟩
    have hroom := hw.filed_room hl (.inr hg)
    exact ⟨h, hh, g, ⟨hg, (hw.wf.alive_iff g).mpr (hw.wf.registered g r hroom)⟩, rfl⟩

/-- The server's memory stands for `m` when lobby, waiting hosts, games and next code agree. -/
theorem abs_eq (hw : Orderly w) {m : Matchmaker PlayerId RoomCode}
    (hlobby : ∀ q, (q ∈ w.players ∧ w.roomOf q = none) ↔ q ∈ m.lobby)
    (hwaiting : ∀ c h, (∃ r, w.rooms.lookup c = some r ∧ (w.room r).guest = none ∧
      (w.room r).host = some h) ↔ m.waiting c = some h)
    (hplaying : ∀ c h g, (∃ r, w.rooms.lookup c = some r ∧ (w.room r).host = some h ∧
      (w.room r).guest = some g) ↔ m.playing c = some (h, g))
    (hnext : w.nextCode = m.next) : w.abs = m := by
  refine Matchmaker.ext (Set.ext hlobby) (funext fun c => Option.ext fun h => ?_)
    (funext fun c => Option.ext ?_) hnext
  · rw [hw.waiting_iff, hwaiting]
  · rintro ⟨h, g⟩
    rw [hw.playing_iff, hplaying]

theorem codes_eq (hw : Orderly w) : w.abs.codes = w.joinable := by
  ext c
  rw [World.mem_joinable]
  show w.abs.waiting c ≠ none ↔ _
  rw [Option.ne_none_iff_exists']
  refine ⟨?_, ?_⟩
  · rintro ⟨h, hh⟩
    obtain ⟨r, hl, hg, -⟩ := hw.waiting_iff.mp hh
    exact ⟨r, hl, (hw.expired_iff hl).mpr hg⟩
  · rintro ⟨r, hl, he⟩
    obtain ⟨h, hh⟩ := hw.wf.has_host r (hw.wf.filed_lt c r hl)
    exact ⟨h, hw.waiting_iff.mpr ⟨r, hl, (hw.expired_iff hl).mp he, hh⟩⟩

theorem partner_iff (hw : Orderly w) : w.abs.Partner p q ↔ w.peerOf p = some q := by
  refine ⟨?_, ?_⟩
  · rintro ⟨c, hc | hc⟩
    all_goals
      obtain ⟨r, hl, hh, hg⟩ := hw.playing_iff.mp hc
      have hne := hw.apart r (.inl ⟨c, hl⟩) _ hh
      have hhr := hw.filed_room hl (.inl hh)
      have hgr := hw.filed_room hl (.inr hg)
    · exact hw.wf.peerOf_eq hhr hgr fun h => hne (h ▸ hg)
    · exact hw.wf.peerOf_eq hgr hhr fun h => hne (h ▸ hg)
  · intro hpeer
    obtain ⟨hne, r, hpr, hqr⟩ := hw.tidy.peer_room hpeer
    have hl := hw.filed.filed p r hpr
    refine ⟨(w.room r).code, ?_⟩
    rw [hw.playing_iff, hw.playing_iff]
    rcases hw.wf.seated p r hpr with hp | hp <;> rcases hw.wf.seated q r hqr with hq | hq
    · exact absurd (Option.some.inj (hq.symm.trans hp)) hne
    · exact .inl ⟨r, hl, hp, hq⟩
    · exact .inr ⟨r, hl, hq, hp⟩
    · exact absurd (Option.some.inj (hq.symm.trans hp)) hne

/-- Where a player in room `r` is. -/
def seatOf (room : Room) (p : PlayerId) : Matchmaker.Place RoomCode :=
  if room.guest = some p then .guest room.code
  else if room.guest = none then .waiting room.code
  else .host room.code

theorem at_seat (hw : Orderly w) (hr : w.roomOf p = some r) : w.abs.At p (seatOf (w.room r) p) := by
  have hl := hw.filed.filed p r hr
  have hlt := hw.wf.room_lt p r hr
  unfold seatOf
  split
  · rename_i hg
    obtain ⟨h, hh⟩ := hw.wf.has_host r hlt
    exact ⟨h, hw.playing_iff.mpr ⟨r, hl, hh, hg⟩⟩
  · rename_i hg
    have hh := (hw.wf.seated p r hr).resolve_right hg
    split
    · rename_i hnone
      exact hw.waiting_iff.mpr ⟨r, hl, hnone, hh⟩
    · rename_i hsome
      obtain ⟨g, hg⟩ := Option.ne_none_iff_exists'.mp hsome
      exact ⟨g, hw.playing_iff.mpr ⟨r, hl, hh, hg⟩⟩

theorem eq_seat (hw : Orderly w) {a : Matchmaker.Place RoomCode} (ha : w.abs.At p a)
    (hne : a ≠ .lobby) : ∃ r, w.roomOf p = some r ∧ a = seatOf (w.room r) p := by
  cases a with
  | lobby => exact absurd rfl hne
  | waiting c =>
    obtain ⟨r, hl, hg, hh⟩ := hw.waiting_iff.mp ha
    exact ⟨r, hw.filed_room hl (.inl hh), by simp [seatOf, hg, hw.wf.filed_code c r hl]⟩
  | host c =>
    obtain ⟨g, ha⟩ := ha
    obtain ⟨r, hl, hh, hg⟩ := hw.playing_iff.mp ha
    have hgp : g ≠ p := fun h => hw.apart r (.inl ⟨c, hl⟩) p hh (h ▸ hg)
    exact ⟨r, hw.filed_room hl (.inl hh), by simp [seatOf, hg, hgp, hw.wf.filed_code c r hl]⟩
  | guest c =>
    obtain ⟨h, ha⟩ := ha
    obtain ⟨r, hl, -, hg⟩ := hw.playing_iff.mp ha
    exact ⟨r, hw.filed_room hl (.inr hg), by simp [seatOf, hg, hw.wf.filed_code c r hl]⟩

theorem onePlace (hw : Orderly w) : w.abs.OnePlace (· ∈ w.players) where
  one p hp := by
    cases hr : w.roomOf p with
    | none =>
      refine ⟨.lobby, ⟨hp, hr⟩, fun a ha => ?_⟩
      by_contra hne
      obtain ⟨r, hr', -⟩ := hw.eq_seat ha hne
      rw [hr] at hr'
      cases hr'
    | some r =>
      refine ⟨seatOf (w.room r) p, hw.at_seat hr, fun a ha => ?_⟩
      have hne : a ≠ .lobby := by
        rintro rfl
        have hnone : w.roomOf p = none := ha.2
        rw [hr] at hnone
        cases hnone
      obtain ⟨r', hr', rfl⟩ := hw.eq_seat ha hne
      rw [Option.some.inj (hr.symm.trans hr')]
  none p hp a ha := by
    by_cases hne : a = .lobby
    · subst hne
      exact hp ha.1
    · obtain ⟨r, hr, -⟩ := hw.eq_seat ha hne
      exact hp (hw.wf.registered p r hr)

end Orderly

/-! ## The states -/

section States

variable {w : World} {p : PlayerId} {r : RoomId}

theorem abs_register (hw : Orderly w) (hw' : Orderly w.register) :
    w.register.abs = w.abs.step (.connect w.nextPlayer : Action _ _ Bytes) := by
  refine hw'.abs_eq (fun q => ?_) (fun c h => hw.waiting_iff.symm)
    (fun c h g => hw.playing_iff.symm) rfl
  show (q ∈ w.players.insert w.nextPlayer ∧ w.register.roomOf q = none) ↔ _
  rw [hw.wf.roomOf_register, List.mem_insert_iff]
  refine ⟨?_, ?_⟩
  · rintro ⟨rfl | hq, hr⟩
    · exact .inl rfl
    · exact .inr ⟨hq, hr⟩
  · rintro (rfl | ⟨hq, hr⟩)
    · exact ⟨.inl rfl, hw.wf.roomless hw.wf.fresh_notMem⟩
    · exact ⟨.inr hq, hr⟩

theorem lookup_hosted_iff (hw : Orderly w) {c : RoomCode} :
    (w.hosted p).rooms.lookup c = if c = w.nextCode then some w.nextRoom else w.rooms.lookup c := by
  rw [World.hosted, World.lookup_emplace]
  simp [hw.filed.nextCode_free]

theorem abs_hosted (hw : Orderly w) (hw' : Orderly (w.hosted p)) :
    (w.hosted p).abs = w.abs.step (.create p : Action _ _ Bytes) := by
  have old : ∀ {c s}, w.rooms.lookup c = some s → (w.hosted p).room s = w.room s :=
    fun hl => World.hosted_room_old (hw.wf.filed_lt _ _ hl)
  refine hw'.abs_eq (fun q => ?_) (fun c h => ?_) (fun c h g => ?_) rfl
  · show (q ∈ w.players ∧ (w.hosted p).roomOf q = none) ↔
      (q ∈ w.players ∧ w.roomOf q = none) ∧ q ≠ p
    rw [World.hosted_roomOf]
    by_cases hq : q = p <;> simp [hq]
  · rw [lookup_hosted_iff hw]
    show _ ↔ update w.abs.waiting w.nextCode (some p) c = some h
    by_cases hc : c = w.nextCode
    · simp [hc]
    · rw [update_of_ne hc, hw.waiting_iff, if_neg hc]
      exact exists_congr fun s => and_congr_right fun hl => by rw [old hl]
  · rw [lookup_hosted_iff hw]
    show _ ↔ w.abs.playing c = some (h, g)
    by_cases hc : c = w.nextCode
    · simp [hc, hw.playing_iff, hw.filed.nextCode_free]
    · rw [hw.playing_iff, if_neg hc]
      exact exists_congr fun s => and_congr_right fun hl => by rw [old hl]

theorem abs_guested (hw : Orderly w) (hw' : Orderly (w.guested p r)) {c : RoomCode}
    (hj : w.Joinable c r) : (w.guested p r).abs = w.abs.step (.join p c : Action _ _ Bytes) := by
  obtain ⟨h, hh⟩ := hw.wf.has_host r (hw.wf.filed_lt c r hj.2.1)
  have hwait : w.abs.waiting c = some h :=
    hw.waiting_iff.mpr ⟨r, hj.2.1, (hw.expired_iff hj.2.1).mp hj.2.2, hh⟩
  have other : ∀ {c' s}, c' ≠ c → w.rooms.lookup c' = some s → s ≠ r := by
    rintro c' s hne hl rfl
    exact hne ((hw.wf.filed_code c' s hl).symm.trans (hw.wf.filed_code c s hj.2.1))
  have hlook : (w.guested p r).rooms = w.rooms := rfl
  simp only [Matchmaker.step, hwait]
  refine hw'.abs_eq (fun q => ?_) (fun c' x => ?_) (fun c' x g => ?_) rfl
  · show (q ∈ w.players ∧ (w.guested p r).roomOf q = none) ↔
      (q ∈ w.players ∧ w.roomOf q = none) ∧ q ≠ p
    rw [World.guested_roomOf]
    by_cases hq : q = p <;> simp [hq]
  · rw [hlook]
    show _ ↔ update w.abs.waiting c none c' = some x
    by_cases hc : c' = c
    · subst hc
      simp [hj.2.1, World.guested_guest]
    · rw [update_of_ne hc, hw.waiting_iff]
      refine exists_congr fun s => and_congr_right fun hl => ?_
      rw [World.guested_guest, if_neg (other hc hl), World.guested_host]
  · rw [hlook]
    show _ ↔ update w.abs.playing c (some (h, p)) c' = some (x, g)
    by_cases hc : c' = c
    · subst hc
      simp [hj.2.1, World.guested_guest, hh]
    · rw [update_of_ne hc, hw.playing_iff]
      refine exists_congr fun s => and_congr_right fun hl => ?_
      rw [World.guested_guest, if_neg (other hc hl), World.guested_host]

theorem lookup_departed_iff (hw : Orderly w) {c : RoomCode} :
    (w.departed p).rooms.lookup c = some r ↔
      w.rooms.lookup c = some r ∧ ¬ (w.room r).Has p := by
  rw [show (w.departed p).rooms = w.roomsWithout p from rfl, World.mem_roomsWithout]
  refine and_congr_right fun hl => ?_
  refine ⟨?_, ?_⟩
  · intro hne hp
    exact hne r (hw.filed_room hl hp) (hw.wf.filed_code c r hl).symm
  · rintro hp s hs rfl
    have hsr := Option.some.inj ((hw.filed.filed p s hs).symm.trans hl)
    exact hp (hsr ▸ hw.wf.seated p s hs)

theorem abs_departed (hw : Orderly w) (hw' : Orderly (w.departed p)) :
    (w.departed p).abs = w.abs.step (.disconnect p : Action _ _ Bytes) := by
  have hroom : (w.departed p).room = w.room := rfl
  refine hw'.abs_eq (fun q => ?_) (fun c h => ?_) (fun c h g => ?_) rfl
  · show (q ∈ w.players.erase p ∧ (w.departed p).roomOf q = none) ↔
      ((q ∈ w.players ∧ w.roomOf q = none) ∨ w.abs.Partner p q) ∧ q ≠ p
    rw [hw.wf.nodup.mem_erase_iff, World.departed_roomOf, hw.partner_iff]
    have hreg : w.peerOf p = some q → q ∈ w.players := fun h => by
      obtain ⟨-, s, -, hqs⟩ := hw.tidy.peer_room h
      exact hw.wf.registered q s hqs
    by_cases hq : q = p
    · simp [hq]
    · by_cases hpeer : w.peerOf p = some q
      · simp [hq, hpeer, hreg hpeer]
      · simp [hq, hpeer]
  · rw [Matchmaker.waiting_disconnect, ne_eq, hw.waiting_iff, hw.waiting_iff, hroom]
    refine ⟨?_, ?_⟩
    · rintro ⟨s, hl, hg, hh⟩
      obtain ⟨hl, hp⟩ := (lookup_departed_iff hw).mp hl
      refine ⟨?_, s, hl, hg, hh⟩
      rintro ⟨s', hl', -, hp'⟩
      obtain rfl := Option.some.inj (hl.symm.trans hl')
      exact hp (.inl hp')
    · rintro ⟨hn, s, hl, hg, hh⟩
      refine ⟨s, (lookup_departed_iff hw).mpr ⟨hl, ?_⟩, hg, hh⟩
      rintro (hp | hp)
      · exact hn ⟨s, hl, hg, hp⟩
      · rw [hg] at hp; cases hp
  · rw [Matchmaker.playing_disconnect, hroom]
    simp only [hw.playing_iff]
    refine ⟨?_, ?_⟩
    · rintro ⟨s, hl, hh, hg⟩
      obtain ⟨hl, hp⟩ := (lookup_departed_iff hw).mp hl
      refine ⟨?_, s, hl, hh, hg⟩
      rintro ⟨q, ⟨s', hl', hp', -⟩ | ⟨s', hl', -, hp'⟩⟩
      all_goals obtain rfl := Option.some.inj (hl.symm.trans hl')
      · exact hp (.inl hp')
      · exact hp (.inr hp')
    · rintro ⟨hn, s, hl, hh, hg⟩
      refine ⟨s, (lookup_departed_iff hw).mpr ⟨hl, ?_⟩, hh, hg⟩
      rintro (hp | hp)
      · exact hn ⟨g, .inl ⟨s, hl, hp, hg⟩⟩
      · exact hn ⟨h, .inr ⟨s, hl, hh, hp⟩⟩

end States

/-! ## The messages -/

section Inbox

variable {w : World} {q : PlayerId}

theorem inbox_roomList (hw : w.players.Nodup) (o : Order) :
    inbox q (w.roomList o) =
      if q ∈ w.players ∧ w.roomOf q = none then [.text (w.roomsLine o)] else [] := by
  have hnd : ((o.players w.players).filter fun p => w.roomOf p = none).Nodup :=
    ((o.players_perm w.players).nodup_iff.mpr hw).filter _
  have hmem : (q ∈ (o.players w.players).filter fun p => w.roomOf p = none) ↔
      q ∈ w.players ∧ w.roomOf q = none := by
    simp [(o.players_perm w.players).mem_iff]
  have hlist : inbox q (w.roomList o) =
      (((o.players w.players).filter fun p => w.roomOf p = none).filter (· = q)).map
        fun _ => .text (w.roomsLine o) := by
    simp only [inbox, World.roomList, List.filter_map, List.map_map]
    rfl
  rw [hlist, List.filter_eq, hnd.count]
  by_cases hq : q ∈ w.players ∧ w.roomOf q = none
  · rw [if_pos hq, if_pos (hmem.mpr hq)]; rfl
  · rw [if_neg hq, if_neg (mt hmem.mp hq)]; rfl

theorem nodup_joinableCodes (w : World) (o : Order) : (w.joinableCodes o).Nodup := by
  have hkeys : (w.rooms.entries.map (·.1)).Nodup := w.rooms.nodupKeys
  have hperm := ((o.rooms_perm w.rooms.entries).map (·.1)).nodup_iff.mpr hkeys
  exact hperm.sublist (List.filter_sublist.map _)

end Inbox

namespace Orderly

variable {w : World} {p q : PlayerId} {r : RoomId}

theorem says_rooms (hw : Orderly w) (o : Order) :
    Says (.text (w.roomsLine o)) (.rooms w.abs.codes) := by
  rw [hw.codes_eq, ← World.joinableCodes_eq o]
  exact .rooms (nodup_joinableCodes w o)

theorem delivers_one {k : Packet} {n : Notice RoomCode Bytes} (h : Says k n) :
    Delivers [(p, k)] fun q => if q = p then [n] else [] := fun q => by
  by_cases hq : q = p
  · simpa [hq] using h
  · simp [hq]

theorem delivers_create (hw : Orderly w) (hw' : Orderly (w.hosted p)) (o : Order) :
    Delivers ((w.hosted p).roomList o ++ [(p, .text (.created w.nextCode))])
      (w.abs.told (.create p)) := fun q => by
  simp only [inbox_append, inbox_roomList hw'.wf.nodup, Matchmaker.told, ← abs_hosted hw hw']
  rw [World.hosted_roomOf]
  by_cases hq : q = p
  · have hnext : w.abs.next = w.nextCode := rfl
    simpa [hq, hnext] using Says.created w.nextCode
  · by_cases hl : q ∈ w.abs.lobby
    · have hl' : q ∈ (w.hosted p).players ∧ w.roomOf q = none := hl
      simpa [hq, hl, hl'] using hw'.says_rooms o
    · have hl' : ¬ (q ∈ (w.hosted p).players ∧ w.roomOf q = none) := hl
      simp [hq, hl, hl']

theorem delivers_join (hw : Orderly w) (hw' : Orderly (w.guested p r)) {c : RoomCode}
    (hj : w.Joinable c r) (hp : w.roomOf p = none) (o : Order) :
    Delivers ((w.guested p r).roomList o ++ w.readies p r) (w.abs.told (.join p c)) := fun q => by
  obtain ⟨h, hh⟩ := hw.wf.has_host r (hw.wf.filed_lt c r hj.2.1)
  have hwait : w.abs.waiting c = some h :=
    hw.waiting_iff.mpr ⟨r, hj.2.1, (hw.expired_iff hj.2.1).mp hj.2.2, hh⟩
  have hroom := hw.filed_room hj.2.1 (.inl hh)
  have hhp : h ≠ p := by
    rintro rfl
    rw [hp] at hroom
    cases hroom
  have hready : w.readies p r = [(h, .text .readyHost), (p, .text .readyGuest)] := by
    have halive := (hw.wf.alive_iff h).mpr (hw.wf.registered h r hroom)
    simp [World.readies, World.lock, hh, halive, hhp, Option.filter]
  simp only [inbox_append, inbox_roomList hw'.wf.nodup, Matchmaker.told, ← abs_guested hw hw' hj,
    hwait,
    hready]
  rw [World.guested_roomOf]
  by_cases hq : q = p
  · simpa [hq, hhp.symm] using Says.readyGuest
  · by_cases hqh : q = h
    · simpa [hqh, hhp, hroom] using Says.readyHost
    · by_cases hl : q ∈ w.abs.lobby
      · have hl' : q ∈ (w.guested p r).players ∧ w.roomOf q = none := hl
        simpa [hq, hqh, hl, hl'] using hw'.says_rooms o
      · have hl' : ¬ (q ∈ (w.guested p r).players ∧ w.roomOf q = none) := hl
        simp [hq, hqh, hl, hl']

theorem delivers_disconnect (hw : Orderly w) (hw' : Orderly (w.departed p)) (hp : p ∈ w.players)
    (o : Order) : Delivers (w.farewell o p) (w.abs.told (.disconnect p)) := fun q => by
  have hnews : (w.departed p).abs.codes = (w.leaving p).joinable := by
    rw [hw'.codes_eq, World.joinable_departed]
    rintro ⟨c, s, hl, hg, hne⟩
    exact hne s (hw.filed_room hl (.inr hg)) (hw.wf.filed_code c s hl).symm
  have hsays : Says (.text ((w.leaving p).roomsLine o)) (.rooms (w.departed p).abs.codes) := by
    rw [hnews, ← World.joinableCodes_eq o]
    exact .rooms (nodup_joinableCodes _ o)
  simp only [Matchmaker.told, ← abs_departed hw hw', hw.partner_iff]
  cases hr : w.roomOf p with
  | none =>
    have hlobby : p ∈ w.abs.lobby := ⟨hp, hr⟩
    simp [World.farewell, hr, World.peerOf_roomless hr, hlobby]
  | some r =>
    have hlobby : p ∉ w.abs.lobby := fun h => by
      have hnone : w.roomOf p = none := h.2
      rw [hr] at hnone
      cases hnone
    have hsome : (w.rooms.lookup (w.room r).code).isSome = true := by
      rw [hw.filed.filed p r hr]; rfl
    have hfarewell : w.farewell o p =
        (w.peerOf p).toList.map (fun q => (q, .text .peerLeft)) ++ (w.leaving p).roomList o := by
      simp only [World.farewell, hr, hsome, if_true]
    have hleft : inbox q ((w.peerOf p).toList.map fun q => (q, .text .peerLeft)) =
        if w.peerOf p = some q then [.text .peerLeft] else [] := by
      cases w.peerOf p with
      | none => simp
      | some x => simp [eq_comm]
    rw [hfarewell, inbox_append, hleft, inbox_roomList (w := w.leaving p) hw.wf.nodup]
    by_cases hpeer : w.peerOf p = some q
    · obtain ⟨-, s, -, hqs⟩ := hw.tidy.peer_room hpeer
      have hin : q ∈ (w.leaving p).players ∧ (w.leaving p).roomOf q = none :=
        ⟨hw.wf.registered q s hqs, if_pos hpeer⟩
      simpa [hpeer, hin] using ⟨.peerLeft, hsays⟩
    · have hout : (w.leaving p).roomOf q = w.roomOf q := if_neg hpeer
      rw [hout]
      by_cases hl : q ∈ w.abs.lobby
      · have hl' : q ∈ (w.leaving p).players ∧ w.roomOf q = none := hl
        simpa [hpeer, hlobby, hl, hl'] using hsays
      · have hl' : ¬ (q ∈ (w.leaving p).players ∧ w.roomOf q = none) := hl
        simp [hpeer, hl, hl']

theorem delivers_relay (hw : Orderly w) {body : Bytes} (hq : w.peerOf p = some q) :
    Delivers [(q, .text (.relay body))] (w.abs.told (.relay p body)) := fun x => by
  have hpartner := hw.partner_iff.mpr hq
  simp only [Matchmaker.told]
  by_cases hx : x = q
  · subst hx
    rw [if_pos hpartner]
    simpa using Says.relay body
  · have hx' : ¬ w.abs.Partner p x := fun h =>
      hx (Option.some.inj ((hw.partner_iff.mp h).symm.trans hq))
    rw [if_neg hx', if_neg fun h => h.2 q hpartner]
    simp [hx]

theorem delivers_relayFailed (hw : Orderly w) {body : Bytes} (hq : w.peerOf p = none) :
    Delivers [(p, .text (.error .notInRoom))] (w.abs.told (.relay p body)) := fun x => by
  have hnone : ∀ y, ¬ w.abs.Partner p y := fun y h => by
    rw [hw.partner_iff, hq] at h
    cases h
  simp only [Matchmaker.told]
  rw [if_neg (hnone x)]
  by_cases hx : x = p
  · rw [if_pos ⟨hx, hnone⟩]
    simpa [hx] using Says.notInRoom
  · rw [if_neg fun h => hx h.1]
    simp [hx]

/-- A `JOIN` fails just when nobody waits under its code. -/
theorem waiting_none (hw : Orderly w) {c : RoomCode} (hn : ∀ r, ¬ w.Joinable c r) :
    w.abs.waiting c = none := by
  refine Option.eq_none_iff_forall_ne_some.mpr fun h hh => ?_
  obtain ⟨r, hl, hg, -⟩ := hw.waiting_iff.mp hh
  have hc : c ≠ 0 := by
    rintro rfl
    exact absurd (hw.filed.key_pos 0 r hl) (lt_irrefl _)
  exact hn r ⟨hc, hl, (hw.expired_iff hl).mpr hg⟩

end Orderly

theorem orderly_init : Orderly World.init := ⟨.init, .init, .init, .init⟩

theorem match_step {w : World} (hw : Orderly w) {l : Label} (hd : Disciplined l w)
    (hc : CodeLeft l w) :
    Delivers (sent l w) (w.abs.toldOpt (act l w)) ∧
      (step l w).abs = w.abs.stepOpt (act l w) := by
  have hw' := hw.step hd hc
  obtain ⟨w', he, hs⟩ := step_effect hw.wf l
  rw [hs] at hw' ⊢
  replace hw' := hw'.of_emit
  suffices Delivers (sent l w) (w.abs.toldOpt (act l w)) ∧ w'.abs = w.abs.stepOpt (act l w)
    from this
  generalize sent l w = ps at he ⊢
  obtain ⟨o, e⟩ := l
  cases he with
  | connect => exact ⟨fun q => .nil, abs_register hw hw'⟩
  | goneMessage p m hp => simp only [act, if_neg hp]; exact ⟨fun q => .nil, rfl⟩
  | goneDisconnect p hp => simp only [act, if_neg hp]; exact ⟨fun q => .nil, rfl⟩
  | list p m hp hv =>
    simp only [act, if_pos hp, hv]
    exact ⟨Orderly.delivers_one (hw.says_rooms o), rfl⟩
  | create p m hp hv =>
    simp only [act, if_pos hp, hv]
    exact ⟨hw.delivers_create hw' o, abs_hosted hw hw'⟩
  | join p m body r hp hv hj =>
    simp only [act, if_pos hp, hv]
    exact ⟨hw.delivers_join hw' hj (hd hp (by rw [hv]; rfl)) o, abs_guested hw hw' hj⟩
  | joinFailed p m body hp hv hn =>
    have hwait := hw.waiting_none hn
    simp only [act, if_pos hp, hv]
    refine ⟨?_, ?_⟩
    · intro q
      simpa only [Matchmaker.toldOpt, Verb.action, Option.elim, Matchmaker.told, hwait]
        using Orderly.delivers_one .joinFailed q
    · simp only [Matchmaker.stepOpt, Verb.action, Option.elim, Matchmaker.step, hwait]
  | relay p m body q hp hv hq =>
    simp only [act, if_pos hp, hv]
    exact ⟨hw.delivers_relay hq, rfl⟩
  | relayFailed p m body hp hv hq =>
    simp only [act, if_pos hp, hv]
    exact ⟨hw.delivers_relayFailed hq, rfl⟩
  | unknown p m hp hv =>
    simp only [act, if_pos hp, hv]
    exact ⟨Orderly.delivers_one .unknownVerb, rfl⟩
  | disconnect p hp =>
    simp only [act, if_pos hp]
    exact ⟨hw.delivers_disconnect hw' hp o, abs_departed hw hw'⟩

/-- **Matchmaker refinement.** As long as clients create and join from the lobby only, the
server and the matchmaker go together: the server's memory is the matchmaker's state, the
registered players are in one place each, and every event tells every player what the
matchmaker does. -/
theorem matchmaker_refined (ls : List Label) (hd : Guarded step Disciplined ls .init)
    (hc : creates ls < 2 ^ 64 - 1) :
    Matched step sent Matchmaker.stepOpt Matchmaker.toldOpt act
      (fun w m => m = w.abs ∧ m.OnePlace (· ∈ w.players)) Delivers ls .init (.empty 1) := by
  have hleft := codeLeft_init hc
  have hempty : (Matchmaker.empty 1 : Matchmaker PlayerId RoomCode) = World.init.abs := by
    ext1
    · ext p; simp [Matchmaker.empty, World.abs, World.init]
    · funext c; simp [Matchmaker.empty, World.abs, World.init]
    · funext c; simp [Matchmaker.empty, World.abs, World.init]
    · rfl
  refine Matched.of_step (G := fun l w => Disciplined l w ∧ CodeLeft l w) (I := Orderly)
    (fun l w hl hw => hw.step hl.1 hl.2) ?_ (hd.and hleft) orderly_init
    ⟨hempty, hempty ▸ orderly_init.onePlace⟩
  rintro l w _ hl hw ⟨rfl, -⟩
  obtain ⟨htold, hstep⟩ := match_step hw hl.1 hl.2
  exact ⟨htold, hstep.symm, hstep ▸ (hw.step hl.1 hl.2).onePlace⟩

/-- A host, its guest and somebody who stays in the lobby. -/
theorem matchmaker_refined_pair :
    Matched step sent Matchmaker.stepOpt Matchmaker.toldOpt act
      (fun w m => m = w.abs ∧ m.OnePlace (· ∈ w.players)) Delivers
      [(.id, .connect), (.id, .connect), (.id, .connect), (.id, .message 0 (ascii "CREATE")),
        (.id, .message 1 (ascii "JOIN 1")), (.id, .message 0 (ascii "RELAY hi")),
        (.id, .disconnect 1)] .init (.empty 1) :=
  matchmaker_refined _ (by decide) (by decide)

end PongPp.Signaling
