import PongPp.Signaling.World

/-!
# What one event does

Each event is an update of the rooms and players followed by writes. `hosted`, `guested` and
`departed` are the three updates; `roomList` is what a broadcast writes. The equations of the
handlers (`handleCreate_eq`, `handleJoin_eq`, `handleRelay_eq`, `handle_cleanup`) are all that
later modules use of them.
-/

namespace PongPp.Signaling

open Function

namespace World

variable (w : World) (o : Order)

/-! ## Writes change nothing but the wire -/

section Emit

variable (ps : List (PlayerId × Packet))

@[simp] theorem emit_rooms : (w.emit ps).rooms = w.rooms := rfl
@[simp] theorem emit_nextCode : (w.emit ps).nextCode = w.nextCode := rfl
@[simp] theorem emit_players : (w.emit ps).players = w.players := rfl
@[simp] theorem emit_room : (w.emit ps).room = w.room := rfl
@[simp] theorem emit_roomOf : (w.emit ps).roomOf = w.roomOf := rfl
@[simp] theorem emit_alive : (w.emit ps).alive = w.alive := rfl
@[simp] theorem emit_nextRoom : (w.emit ps).nextRoom = w.nextRoom := rfl
@[simp] theorem emit_nextPlayer : (w.emit ps).nextPlayer = w.nextPlayer := rfl
@[simp] theorem emit_wire : (w.emit ps).wire = w.wire ++ ps := rfl
@[simp] theorem emit_nil : w.emit [] = w := by simp [emit]
@[simp] theorem emit_emit (qs : List (PlayerId × Packet)) :
    (w.emit ps).emit qs = w.emit (ps ++ qs) := by simp [emit]
@[simp] theorem lock_emit (q : Option PlayerId) : (w.emit ps).lock q = w.lock q := rfl

end Emit

@[simp] theorem lock_eq_some {q : Option PlayerId} {p : PlayerId} :
    w.lock q = some p ↔ q = some p ∧ w.alive p = true := by
  simp [lock, Option.filter_eq_some_iff]

theorem expired_iff {q : Option PlayerId} :
    w.expired q = true ↔ ∀ p, q = some p → w.alive p = false := by
  rw [expired, Option.isNone_iff_eq_none, lock, Option.filter_eq_none_iff]
  simp

/-- What a broadcast of the room list writes. -/
def roomList : List (PlayerId × Packet) :=
  ((o.players w.players).filter fun p => w.roomOf p = none).map fun p => (p, .text (w.roomsLine o))

theorem broadcastRoomList_eq : w.broadcastRoomList o = w.emit (w.roomList o) := by
  have key : ∀ (ps : List PlayerId) (msg : Msg) (w : World),
      ps.foldl (fun w p => if w.roomOf p = none then w.send p msg else w) w =
        w.emit ((ps.filter fun p => w.roomOf p = none).map fun p => (p, .text msg)) := by
    intro ps msg
    induction ps with
    | nil => intro w; simp
    | cons p ps ih =>
      intro w
      rw [List.foldl_cons, ih]
      by_cases h : w.roomOf p = none <;> simp [h, send]
  exact key _ _ _

theorem mem_roomList {x : PlayerId × Packet} :
    x ∈ w.roomList o ↔
      x.1 ∈ w.players ∧ w.roomOf x.1 = none ∧ x.2 = .text (w.roomsLine o) := by
  obtain ⟨p, k⟩ := x
  simp only [roomList, List.mem_map, List.mem_filter, (o.players_perm _).mem_iff,
    decide_eq_true_eq, Prod.mk.injEq]
  refine ⟨?_, ?_⟩
  · rintro ⟨q, ⟨hq, hr⟩, rfl, rfl⟩; exact ⟨hq, hr, rfl⟩
  · rintro ⟨hq, hr, rfl⟩; exact ⟨p, ⟨hq, hr⟩, rfl, rfl⟩

theorem mem_joinableCodes {c : RoomCode} :
    c ∈ w.joinableCodes o ↔
      ∃ r, w.rooms.lookup c = some r ∧ w.expired (w.room r).guest = true := by
  simp only [joinableCodes, List.mem_map, List.mem_filter, (o.rooms_perm _).mem_iff]
  refine ⟨?_, ?_⟩
  · rintro ⟨⟨c', r⟩, ⟨hm, he⟩, rfl⟩
    exact ⟨r, AList.mem_lookup_iff.mpr hm, he⟩
  · rintro ⟨r, hl, he⟩
    exact ⟨⟨c, r⟩, ⟨AList.mem_lookup_iff.mp hl, he⟩, rfl⟩

theorem lookup_emplace {m : AList fun _ : RoomCode => RoomId} {c c' : RoomCode} {r : RoomId} :
    (emplace m c r).lookup c' =
      if c' = c ∧ m.lookup c = none then some r else m.lookup c' := by
  unfold emplace
  cases h : m.lookup c with
  | none =>
    by_cases hc : c' = c
    · subst hc; simp
    · simp [hc, AList.lookup_insert_ne hc]
  | some r' => simp

/-! ## The updates -/

/-- `p` hosts a new room. -/
def hosted (p : PlayerId) : World :=
  { w with rooms := emplace w.rooms w.nextCode w.nextRoom
           nextCode := w.nextCode + 1
           room := update w.room w.nextRoom ⟨w.nextCode, some p, none⟩
           roomOf := update w.roomOf p (some w.nextRoom)
           nextRoom := w.nextRoom + 1 }

/-- `p` takes the guest seat of `r`. -/
def guested (p : PlayerId) (r : RoomId) : World :=
  { w with room := update w.room r { w.room r with guest := some p }
           roomOf := update w.roomOf p (some r) }

/-- The other live occupant of `p`'s room. -/
def peerOf (p : PlayerId) : Option PlayerId :=
  (w.roomOf p).bind fun r => w.otherPlayer (w.room r) p

/-- `rooms_` without `p`'s room. -/
def roomsWithout (p : PlayerId) : AList fun _ : RoomCode => RoomId :=
  match w.roomOf p with
  | none => w.rooms
  | some r => w.rooms.erase (w.room r).code

/-- `p` is leaving: its peer is out of the room and the room out of `rooms_`, but `p` still
exists and still has its `room_`. This is the state the room list is sent from. -/
def leaving (p : PlayerId) : World :=
  { w with rooms := w.roomsWithout p
           roomOf := fun q => if w.peerOf p = some q then none else w.roomOf q }

/-- `p` is out of its room and the hub, but its handler still holds it. -/
def cleaned (p : PlayerId) : World :=
  { w with rooms := w.roomsWithout p
           roomOf := fun q => if q = p ∨ w.peerOf p = some q then none else w.roomOf q
           players := w.players.erase p }

/-- `p` has left and no longer exists. -/
def departed (p : PlayerId) : World :=
  { w.cleaned p with alive := update w.alive p false }

section Updates

variable {w} {p q : PlayerId} {r s : RoomId} {c : RoomCode}

theorem lookup_hosted (hl : (w.hosted p).rooms.lookup c = some r) :
    (c = w.nextCode ∧ r = w.nextRoom) ∨ w.rooms.lookup c = some r := by
  simp only [hosted, lookup_emplace] at hl
  split at hl
  · rename_i hc; cases hl; exact .inl ⟨hc.1, rfl⟩
  · exact .inr hl

@[simp] theorem hosted_room_new :
    (w.hosted p).room w.nextRoom = ⟨w.nextCode, some p, none⟩ := by
  simp [hosted]

theorem hosted_room_old (hr : r < w.nextRoom) : (w.hosted p).room r = w.room r := by
  simp [hosted, update_of_ne hr.ne]

theorem hosted_roomOf :
    (w.hosted p).roomOf q = if q = p then some w.nextRoom else w.roomOf q := by
  simp [hosted, update_apply]

theorem roomOf_hosted (hr : (w.hosted p).roomOf q = some r) :
    (q = p ∧ r = w.nextRoom) ∨ (q ≠ p ∧ w.roomOf q = some r) := by
  rw [hosted_roomOf] at hr
  split at hr
  · rename_i hq; exact .inl ⟨hq, (Option.some.inj hr).symm⟩
  · rename_i hq; exact .inr ⟨hq, hr⟩

@[simp] theorem guested_host : ((w.guested p r).room s).host = (w.room s).host := by
  by_cases hs : s = r
  · subst hs; simp [guested]
  · simp [guested, hs]

@[simp] theorem guested_code : ((w.guested p r).room s).code = (w.room s).code := by
  by_cases hs : s = r
  · subst hs; simp [guested]
  · simp [guested, hs]

theorem guested_guest :
    ((w.guested p r).room s).guest = if s = r then some p else (w.room s).guest := by
  by_cases hs : s = r
  · subst hs; simp [guested]
  · simp [guested, hs]

theorem guested_roomOf : (w.guested p r).roomOf q = if q = p then some r else w.roomOf q := by
  simp [guested, update_apply]

theorem roomOf_guested (hs : (w.guested p r).roomOf q = some s) :
    (q = p ∧ s = r) ∨ (q ≠ p ∧ w.roomOf q = some s) := by
  rw [guested_roomOf] at hs
  split at hs
  · rename_i hq; exact .inl ⟨hq, (Option.some.inj hs).symm⟩
  · rename_i hq; exact .inr ⟨hq, hs⟩

theorem lookup_departed (hl : (w.departed p).rooms.lookup c = some r) :
    w.rooms.lookup c = some r ∧ ∀ s, w.roomOf p = some s → c ≠ (w.room s).code := by
  simp only [departed, cleaned, roomsWithout] at hl
  cases hr : w.roomOf p with
  | none => rw [hr] at hl; exact ⟨hl, by simp⟩
  | some s =>
    rw [hr] at hl
    by_cases hc : c = (w.room s).code
    · subst hc; simp at hl
    · simp only [AList.lookup_erase_ne hc] at hl
      exact ⟨hl, fun s' hs' => by cases hs'; exact hc⟩

theorem departed_roomOf :
    (w.departed p).roomOf q = if q = p ∨ w.peerOf p = some q then none else w.roomOf q := rfl

theorem roomOf_departed (hr : (w.departed p).roomOf q = some r) :
    q ≠ p ∧ w.peerOf p ≠ some q ∧ w.roomOf q = some r := by
  rw [departed_roomOf] at hr
  split at hr
  · cases hr
  · rename_i hn; push Not at hn; exact ⟨hn.1, hn.2, hr⟩

end Updates

/-! ## The peer -/

theorem mem_otherPlayer {room : Room} {p q : PlayerId} (h : w.otherPlayer room p = some q) :
    (room.host = some q ∨ room.guest = some q) ∧ w.alive q = true ∧ q ≠ p := by
  simp only [otherPlayer, Option.or_eq_some_iff, Option.filter_eq_some_iff, lock_eq_some,
    decide_eq_true_eq, Option.filter_eq_none_iff] at h
  tauto

theorem otherPlayer_eq {room : Room} {p q : PlayerId} (hq : w.alive q = true) (hqp : q ≠ p)
    (h : (room.host = some q) ∨ (room.host = some p ∧ room.guest = some q)) :
    w.otherPlayer room p = some q := by
  simp only [otherPlayer, Option.or_eq_some_iff, Option.filter_eq_some_iff, lock_eq_some,
    decide_eq_true_eq, Option.filter_eq_none_iff]
  rcases h with h | ⟨h1, h2⟩
  · exact .inl ⟨⟨h, hq⟩, hqp⟩
  · refine .inr ⟨fun x hx => ?_, ⟨h2, hq⟩, hqp⟩
    have : p = x := by simpa using h1.symm.trans hx.1
    simp [this]

/-! ## The handlers -/

theorem handle_eq {p : PlayerId} {f : World → World} (hp : w.alive p = true)
    (hf : p ∈ (f w).players) : w.handle p f = f w := by
  simp [handle, hp, release, hf]

theorem handle_dead {p : PlayerId} {f : World → World} (hp : w.alive p = false) :
    w.handle p f = w := by
  simp [handle, hp]

theorem handleCreate_eq (p : PlayerId) :
    w.handleCreate o p =
      (w.hosted p).emit ((w.hosted p).roomList o ++ [(p, .text (.created w.nextCode))]) := by
  have h : w.allocRoom.enterRoomAsHost p w.nextRoom = w.hosted p := by
    simp [allocRoom, enterRoomAsHost, hosted]
  simp [handleCreate, newRoom, h, broadcastRoomList_eq, send]

/-- A `JOIN` of code `c` finds room `r` and its guest seat free. -/
def Joinable (c : RoomCode) (r : RoomId) : Prop :=
  c ≠ 0 ∧ w.rooms.lookup c = some r ∧ w.expired (w.room r).guest = true

/-- The room that a message gets its sender into as a guest. -/
def joinTarget (m : Bytes) : Option RoomId :=
  match parseVerb m with
  | .join body =>
    if parseCode body = 0 then none
    else (w.rooms.lookup (parseCode body)).filter fun r => w.expired (w.room r).guest
  | _ => none

theorem joinTarget_eq_some {m : Bytes} {r : RoomId} :
    w.joinTarget m = some r ↔
      ∃ body, parseVerb m = .join body ∧ w.Joinable (parseCode body) r := by
  unfold joinTarget Joinable
  cases parseVerb m with
  | join body =>
    by_cases hc : parseCode body = 0 <;> simp [hc, Option.filter_eq_some_iff]
  | _ => simp

theorem Joinable.target {w : World} {m body : Bytes} {r : RoomId} (hv : parseVerb m = .join body)
    (hj : w.Joinable (parseCode body) r) : w.joinTarget m = some r :=
  w.joinTarget_eq_some.mpr ⟨body, hv, hj⟩

/-- The two `READY` messages of a join. -/
def readies (p : PlayerId) (r : RoomId) : List (PlayerId × Packet) :=
  (((w.lock (w.room r).host).filter (· ≠ p)).toList.map fun h => (h, .text .readyHost)) ++
    [(p, .text .readyGuest)]

theorem handleJoin_eq {p : PlayerId} {code : Bytes} {r : RoomId}
    (h : w.Joinable (parseCode code) r) :
    w.handleJoin o p code =
      (w.guested p r).emit ((w.guested p r).roomList o ++ w.readies p r) := by
  have hg : w.enterRoomAsGuest p r = w.guested p r := rfl
  have hhost : (w.guested p r).lock ((w.guested p r).room r).host = w.lock (w.room r).host := by
    simp [guested, lock]
  obtain ⟨hc, hl, he⟩ := h
  simp only [handleJoin, if_pos hc, join, hl, he, if_true, hg, broadcastRoomList_eq, emit_room,
    lock_emit, hhost, readies]
  cases hh : w.lock (w.room r).host with
  | none => simp [send]
  | some q => by_cases hq : q = p <;> simp [send, hq, Option.filter]

theorem handleJoin_fails {p : PlayerId} {code : Bytes}
    (h : ∀ r, ¬ w.Joinable (parseCode code) r) :
    w.handleJoin o p code = w.send p (.error .joinFailed) := by
  by_cases hc : parseCode code = 0
  · simp [handleJoin, hc]
  · simp only [handleJoin, ne_eq, hc, not_false_eq_true, if_true, join]
    cases hl : w.rooms.lookup (parseCode code) with
    | none => rfl
    | some r =>
      have he : w.expired (w.room r).guest = false := by
        by_contra hne
        exact h r ⟨hc, hl, by simpa using hne⟩
      simp [he]

theorem handleRelay_eq (p : PlayerId) (body : Bytes) :
    w.handleRelay p body = match w.peerOf p with
      | none => w.send p (.error .notInRoom)
      | some peer => w.send peer (.relay body) := rfl

@[simp] theorem eraseRoom_emit (c : RoomCode) (ps : List (PlayerId × Packet)) :
    (w.emit ps).eraseRoom c = (w.eraseRoom c).emit ps := rfl

@[simp] theorem roomList_emit (ps : List (PlayerId × Packet)) :
    (w.emit ps).roomList o = w.roomList o := rfl

theorem delete_eq (c : RoomCode) :
    w.delete o c = (w.eraseRoom c).emit
      (if (w.rooms.lookup c).isSome then (w.eraseRoom c).roomList o else []) := by
  unfold delete
  split
  · exact broadcastRoomList_eq _ o
  · rename_i h
    have hc : c ∉ w.rooms := by rwa [AList.lookup_isSome] at h
    have he : w.rooms.erase c = w.rooms := AList.ext (List.kerase_of_notMem_keys hc)
    simp [eraseRoom, he]

/-- `p`'s peer is out of the room. -/
def parted (p : PlayerId) : World :=
  { w with roomOf := fun q => if w.peerOf p = some q then none else w.roomOf q }

theorem dismissPeer_eq {p : PlayerId} {r : RoomId} (hr : w.roomOf p = some r) :
    w.dismissPeer (w.room r) p =
      (w.parted p).emit ((w.peerOf p).toList.map fun q => (q, .text .peerLeft)) := by
  have hpeer : w.otherPlayer (w.room r) p = w.peerOf p := by simp [peerOf, hr]
  unfold dismissPeer parted
  rw [hpeer]
  cases w.peerOf p with
  | none => simp
  | some q =>
    have hq : update w.roomOf q none = fun x => if q = x then none else w.roomOf x := by
      funext x; simp [update_apply, eq_comm]
    simp [leaveRoom, send, hq, emit]

/-- What `Cleanup` of `p` writes. -/
def farewell (p : PlayerId) : List (PlayerId × Packet) :=
  match w.roomOf p with
  | none => []
  | some r =>
    ((w.peerOf p).toList.map fun q => (q, .text .peerLeft)) ++
      if (w.rooms.lookup (w.room r).code).isSome then (w.leaving p).roomList o else []

theorem cleanup_eq (p : PlayerId) :
    w.cleanup o p = (w.cleaned p).emit (w.farewell o p) := by
  unfold cleanup farewell
  cases hr : w.roomOf p with
  | none =>
    have hpeer : w.peerOf p = none := by simp [peerOf, hr]
    have hroom : w.roomOf = fun q => if q = p then none else w.roomOf q := by
      funext q; split <;> simp_all
    simpa [unregister, cleaned, roomsWithout, hr, hpeer] using hroom
  | some r =>
    have hleave : (w.parted p).eraseRoom (w.room r).code = w.leaving p := by
      simp [parted, eraseRoom, leaving, roomsWithout, hr]
    have hroom : update (w.leaving p).roomOf p none = (w.cleaned p).roomOf := by
      funext q; by_cases hq : q = p <;> simp [leaving, cleaned, hq]
    have hlook : (w.parted p).rooms = w.rooms := rfl
    simp only [dismissPeer_eq w hr, delete_eq, eraseRoom_emit, emit_rooms, roomList_emit, hleave,
      hlook, emit_emit]
    simp only [leaveRoom, unregister, emit_roomOf, hroom]
    rfl

theorem handle_cleanup {p : PlayerId} (hp : w.alive p = true) (hnd : w.players.Nodup) :
    w.handle p (fun w => w.cleanup o p) = (w.departed p).emit (w.farewell o p) := by
  have hmem : p ∉ (w.cleaned p).players := by simp [cleaned, hnd.mem_erase_iff]
  simp only [handle, hp, if_true, release, cleanup_eq, emit_players, hmem, if_false]
  rfl

end World

end PongPp.Signaling
