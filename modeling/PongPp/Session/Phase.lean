import PongPp.Session.System

/-!
# Phases

Where a page is on its way through the lobby and a game, as the server has it (`Seat`) and as what
comes down the connection changes it (`Phase.next`). What one event of the server does to a player
it is not about, it tells that player (`bystander`): its phase after the event is where the lines
it is written take it.
-/

namespace PongPp.Session

open Function Lib Signaling

inductive Phase where
  /-- The upgrade request has not been answered. -/
  | connecting
  /-- Something came before the answer. -/
  | failed
  | idle
  /-- A `CREATE` or `JOIN` is out. -/
  | asking
  | waiting (r : RoomId) (code : RoomCode)
  | playing (r : RoomId) (role : Web.Role)
  deriving DecidableEq, Repr

namespace Phase

/-- What comes down next, if it is expected. -/
def next : Phase → Option RoomId × Item → Option Phase
  | .connecting, (_, .response) => some .idle
  | .connecting, (_, .line _) => some .failed
  | .failed, _ => some .failed
  | .idle, (_, .line (.rooms _)) => some .idle
  | .idle, (_, .line (.error .notInRoom)) => some .idle
  | .asking, (_, .line (.rooms _)) => some .asking
  | .asking, (_, .line (.error .notInRoom)) => some .asking
  | .asking, (_, .line (.error .joinFailed)) => some .idle
  | .asking, (some r, .line (.created code)) => some (.waiting r code)
  | .asking, (some r, .line .readyGuest) => some (.playing r .guest)
  | .waiting r _, (room, .line .readyHost) =>
    if room = some r then some (.playing r .host) else none
  | .playing r role, (room, .line (.relay body)) =>
    if room = some r ∧ (utf8Decode body).isSome then some (.playing r role) else none
  | .playing _ _, (_, .line .peerLeft) => some .idle
  | _, _ => none

/-- All that is on its way down. -/
def after : Phase → List (Option RoomId × Item) → Option Phase := List.foldlM next

@[simp] theorem after_nil (φ : Phase) : φ.after [] = some φ := rfl

theorem after_cons (φ : Phase) (x : Option RoomId × Item) (xs : List (Option RoomId × Item)) :
    φ.after (x :: xs) = (φ.next x).bind fun φ' => φ'.after xs := rfl

theorem after_append (φ : Phase) (xs ys : List (Option RoomId × Item)) :
    φ.after (xs ++ ys) = (φ.after xs).bind fun φ' => φ'.after ys :=
  List.foldlM_append

/-- A player in the lobby. -/
def Roomless : Phase → Prop
  | .connecting | .failed | .idle | .asking => True
  | _ => False

/-- A room list changes nothing but for a page that is still connecting. -/
def listed : Phase → Phase
  | .connecting => .failed
  | φ => φ

theorem next_rooms {φ : Phase} (h : φ.Roomless) (room : Option RoomId) (codes : List RoomCode) :
    φ.next (room, .line (.rooms codes)) = some φ.listed := by
  cases φ <;> first | rfl | exact h.elim

/-- The user asks: whatever is on its way to an idle page does not answer. -/
theorem after_asking {xs : List (Option RoomId × Item)} {φ : Phase}
    (h : after .idle xs = some φ) : φ = .idle ∧ after .asking xs = some .asking := by
  induction xs with
  | nil =>
    cases h
    exact ⟨rfl, rfl⟩
  | cons x xs ih =>
    rw [after_cons] at h ⊢
    obtain ⟨φ', hnext, hafter⟩ := Option.bind_eq_some_iff.mp h
    obtain ⟨rfl, hasking⟩ : φ' = .idle ∧ next .asking x = some .asking := by
      obtain ⟨room, item⟩ := x
      cases item with
      | response => cases hnext
      | line msg =>
        cases msg with
        | rooms codes => cases hnext; exact ⟨rfl, rfl⟩
        | error reason => cases reason <;> cases hnext; exact ⟨rfl, rfl⟩
        | _ => cases hnext
    obtain ⟨hφ, hxs⟩ := ih hafter
    exact ⟨hφ, by rw [hasking]; exact hxs⟩

theorem after_playing {r : RoomId} {role : Web.Role} {xs : List (Option RoomId × Item)}
    {φ : Phase} (h : after (.playing r role) xs = some φ) :
    φ = .playing r role ∨ φ = .idle := by
  induction xs with
  | nil =>
    cases h
    exact .inl rfl
  | cons x xs ih =>
    rw [after_cons] at h
    obtain ⟨φ', hnext, hafter⟩ := Option.bind_eq_some_iff.mp h
    obtain ⟨room, item⟩ := x
    cases item with
    | response => cases hnext
    | line msg =>
      cases msg with
      | relay body =>
        obtain ⟨-, heq⟩ := Option.ite_none_right_eq_some.mp hnext
        cases heq
        exact ih hafter
      | peerLeft =>
        cases hnext
        exact .inr (after_asking hafter).1
      | _ => cases hnext

end Phase

/-! ## Seats -/

/-- Where the server has a player. -/
def Seat (w : World) (p : PlayerId) : Phase → Prop
  | .connecting | .failed | .idle | .asking => w.roomOf p = none
  | .waiting r code =>
    w.roomOf p = some r ∧ (w.room r).host = some p ∧ (w.room r).guest = none ∧
      (w.room r).code = code
  | .playing r .host => w.roomOf p = some r ∧ (w.room r).host = some p ∧ (w.room r).guest ≠ none
  | .playing r .guest => w.roomOf p = some r ∧ (w.room r).guest = some p

namespace Seat

variable {w w' : World} {p q : PlayerId} {r : RoomId} {φ : Phase}

theorem roomless (h : Seat w p φ) (hr : w.roomOf p = none) : φ.Roomless := by
  cases φ with
  | waiting r code => exact absurd (hr.symm.trans h.1) nofun
  | playing r role => cases role <;> exact absurd (hr.symm.trans h.1) nofun
  | _ => trivial

theorem listed (h : Seat w p φ) (hr : w.roomOf p = none) : Seat w p φ.listed := by
  cases φ <;> first | exact hr | exact h

theorem congr (h : Seat w p φ) (hr : w'.roomOf p = w.roomOf p)
    (hroom : ∀ r, w.roomOf p = some r → w'.room r = w.room r) : Seat w' p φ := by
  cases φ with
  | waiting r code => rw [Seat, hr, hroom r h.1]; exact h
  | playing r role => cases role <;> (rw [Seat, hr, hroom r h.1]; exact h)
  | _ => exact hr.trans h

theorem playing (h : Seat w p φ) (hw : Orderly w) (hq : w.peerOf p = some q)
    (hr : w.roomOf p = some r) : ∃ role, φ = .playing r role := by
  obtain ⟨hne, s, hps, hqs⟩ := hw.tidy.peer_room hq
  obtain rfl : r = s := Option.some.inj (hr.symm.trans hps)
  cases φ with
  | waiting s code =>
    obtain ⟨hs, hhost, hguest, -⟩ := h
    obtain rfl : r = s := Option.some.inj (hr.symm.trans hs)
    rcases hw.wf.seated q r hqs with hseat | hseat
    · exact absurd (Option.some.inj (hseat.symm.trans hhost)) hne
    · rw [hguest] at hseat
      cases hseat
  | playing s role =>
    obtain rfl : r = s := by cases role <;> exact Option.some.inj (hr.symm.trans h.1)
    exact ⟨role, rfl⟩
  | _ => exact absurd (hr.symm.trans h) nofun

end Seat

/-! ## What lines take a page where -/

section Items

variable {room : Option RoomId}

@[simp] theorem itemsOf_nil : itemsOf room [] = [] := rfl

@[simp] theorem itemsOf_cons (msg : Msg) (ps : List Packet) :
    itemsOf room (.text msg :: ps) = (room, .line msg) :: itemsOf room ps := rfl

end Items

/-- A client's lines that a phase goes with. -/
def Quiet (line : Web.Line) : Prop :=
  line = .list ∨ ∃ body, line = .relay body ∧ Server.Endable body

def Admits (c : Client) : Phase → Prop
  | .connecting => c.up = [] ∧ c.upgraded = false
  | .failed => c.up = []
  | .idle => c.upgraded = true ∧ ∀ x ∈ c.up, Quiet x.2
  | .asking =>
    c.upgraded = true ∧ ∃ xs x, c.up = xs ++ [x] ∧ (∀ x ∈ xs, Quiet x.2) ∧ x.2.isRequest = true
  | .waiting _ _ => c.upgraded = true ∧ c.up = []
  | .playing r _ =>
    c.upgraded = true ∧
      ∀ x ∈ c.up, x.1 = some r ∧ ∃ body, x.2 = .relay body ∧ Server.Endable body

/-- `q` does nothing in the event. -/
def Spares (q : PlayerId) : Signaling.Event → Prop
  | .connect => True
  | .message p _ | .disconnect p => p ≠ q

/-- A player in phase `φ` that is written `ps` gets to a phase that goes with where it is then. -/
def Tells (w : World) (q : PlayerId) (ps : List Packet) (φ : Phase) : Prop :=
  ∃ φ', Seat w q φ' ∧ φ.after (itemsOf (w.roomOf q) ps) = some φ' ∧ ∀ c, Admits c φ → Admits c φ'

namespace Tells

variable {w w' : World} {p q : PlayerId} {r : RoomId} {φ : Phase}

theorem nothing (h : Seat w q φ) : Tells w q [] φ := ⟨φ, h, rfl, fun _ h => h⟩

theorem rooms (h : Seat w q φ) (hr : w.roomOf q = none) (codes : List RoomCode) :
    Tells w q [.text (.rooms codes)] φ := by
  refine ⟨φ.listed, h.listed hr, ?_, fun c hc => ?_⟩
  · rw [itemsOf_cons, itemsOf_nil, Phase.after_cons, Phase.next_rooms (h.roomless hr)]
    rfl
  · cases φ with
    | connecting => exact hc.1
    | _ => exact hc

theorem broadcast (h : Seat w q φ) (hw : Wf w) (hq : q ∈ w.players) (o : Order) :
    Tells w q (inbox q (w.roomList o)) φ := by
  rw [inbox_roomList hw.nodup]
  by_cases hr : w.roomOf q = none
  · rw [if_pos ⟨hq, hr⟩]
    exact rooms h hr _
  · rw [if_neg fun h => hr h.2]
    exact nothing h

theorem ready (hw : w.roomOf q = some r) (hhost : (w.room r).host = some q)
    (hguest : (w.room r).guest ≠ none) (code : RoomCode) :
    Tells w q [.text .readyHost] (.waiting r code) := by
  refine ⟨.playing r .host, ⟨hw, hhost, hguest⟩, ?_, fun c hc => ⟨hc.1, ?_⟩⟩
  · simp [Phase.after_cons, Phase.next, hw]
  · rw [hc.2]
    exact fun x hx => absurd hx List.not_mem_nil

theorem left (hr : w.roomOf q = none) (role : Web.Role) (codes : List RoomCode) :
    Tells w q [.text .peerLeft, .text (.rooms codes)] (.playing r role) := by
  refine ⟨.idle, hr, rfl, fun c hc => ⟨hc.1, fun x hx => ?_⟩⟩
  obtain ⟨-, body, hbody, hend⟩ := hc.2 x hx
  exact .inr ⟨body, hbody, hend⟩

theorem relayed {role : Web.Role} {body : Bytes} (h : Seat w q (.playing r role))
    (hr : w.roomOf q = some r) (hb : Utf8 body) :
    Tells w q [.text (.relay body)] (.playing r role) := by
  refine ⟨_, h, ?_, fun c hc => hc⟩
  obtain ⟨s, rfl⟩ := hb
  simp [Phase.after_cons, Phase.next, hr, utf8Decode_encode]

theorem emit {ps : List Packet} (h : Tells w q ps φ) (xs : List (PlayerId × Packet)) :
    Tells (w.emit xs) q ps φ := by
  obtain ⟨φ', hseat, hafter, hadmits⟩ := h
  exact ⟨φ', hseat.congr rfl fun _ _ => rfl, hafter, hadmits⟩

theorem create (h : Seat w q φ) (hw : Orderly w) (hw' : Wf (w.hosted p)) (hq : q ∈ w.players)
    (hqp : q ≠ p) (o : Order) :
    Tells (w.hosted p) q
      (inbox q ((w.hosted p).roomList o ++ [(p, .text (.created w.nextCode))])) φ := by
  rw [inbox_append, inbox_cons, if_neg hqp, inbox_nil, List.append_nil]
  refine broadcast (h.congr ?_ fun r hr => ?_) hw' hq o
  · rw [World.hosted_roomOf, if_neg hqp]
  · exact World.hosted_room_old (hw.wf.room_lt q r hr)

theorem join (h : Seat w q φ) (hw : Orderly w) (hw' : Wf (w.guested p r)) (hq : q ∈ w.players)
    (hqp : q ≠ p) {code : RoomCode} (hj : w.Joinable code r) (o : Order) :
    Tells (w.guested p r) q (inbox q ((w.guested p r).roomList o ++ w.readies p r)) φ := by
  have hempty : (w.room r).guest = none := (hw.expired_iff hj.2.1).mp hj.2.2
  have hroom : (w.guested p r).roomOf q = w.roomOf q := by rw [World.guested_roomOf, if_neg hqp]
  rw [inbox_append]
  by_cases hhost : (w.room r).host = some q
  · have hqr := hw.filed_room hj.2.1 (.inl hhost)
    have halive := (hw.wf.alive_iff q).mpr hq
    have hlist : inbox q ((w.guested p r).roomList o) = [] := by
      rw [inbox_roomList hw'.nodup, hroom, hqr, if_neg fun h => Option.some_ne_none r h.2]
    have hready : inbox q (w.readies p r) = [.text .readyHost] := by
      simp [World.readies, World.lock, hhost, halive, hqp, Option.filter]
    rw [hlist, hready, List.nil_append]
    obtain ⟨code', rfl⟩ : ∃ code', φ = .waiting r code' := by
      cases φ with
      | waiting s code' =>
        obtain rfl : r = s := Option.some.inj (hqr.symm.trans h.1)
        exact ⟨code', rfl⟩
      | playing s role =>
        cases role with
        | host =>
          obtain rfl : r = s := Option.some.inj (hqr.symm.trans h.1)
          exact absurd hempty h.2.2
        | guest =>
          obtain rfl : r = s := Option.some.inj (hqr.symm.trans h.1)
          exact absurd (h.2.symm.trans hempty) (by simp)
      | _ => exact absurd (hqr.symm.trans h) (by simp)
    refine ready (by rw [hroom, hqr]) ?_ ?_ code'
    · rw [World.guested_host, hhost]
    · rw [World.guested_guest, if_pos rfl]
      exact Option.some_ne_none p
  · have hready : inbox q (w.readies p r) = [] := by
      refine inbox_eq_nil fun x hx hxq => ?_
      obtain ⟨x, k⟩ := x
      obtain rfl : x = q := hxq
      rcases World.mem_readies.mp hx with ⟨hlock, -, -⟩ | ⟨hxp, -⟩
      · exact hhost (w.lock_eq_some.mp hlock).1
      · exact hqp hxp
    rw [hready, List.append_nil]
    refine broadcast (h.congr hroom fun s hs => ?_) hw' hq o
    have hsr : s ≠ r := by
      rintro rfl
      rcases hw.wf.seated q s hs with hseat | hseat
      · exact hhost hseat
      · exact absurd (hseat.symm.trans hempty) (by simp)
    show update w.room r _ s = w.room s
    rw [update_of_ne hsr]

theorem disconnect (h : Seat w q φ) (hw : Orderly w) (hq : q ∈ w.players) (hqp : q ≠ p)
    (o : Order) : Tells (w.departed p) q (inbox q (w.farewell o p)) φ := by
  have hroom : w.peerOf p ≠ some q → (w.departed p).roomOf q = w.roomOf q := fun hpeer => by
    rw [World.departed_roomOf, if_neg fun h => h.elim hqp hpeer]
  cases hp : w.roomOf p with
  | none =>
    rw [World.farewell, hp]
    exact nothing (h.congr (hroom (by simp [World.peerOf_roomless hp])) fun _ _ => rfl)
  | some r =>
    have hsome : (w.rooms.lookup (w.room r).code).isSome = true := by
      rw [hw.filed.filed p r hp]
      rfl
    have hleft : inbox q ((w.peerOf p).toList.map fun q => (q, .text .peerLeft)) =
        if w.peerOf p = some q then [.text .peerLeft] else [] := by
      cases w.peerOf p with
      | none => simp
      | some x => simp [eq_comm]
    simp only [World.farewell, hp, hsome, if_true]
    rw [inbox_append, hleft, inbox_roomList (w := w.leaving p) hw.wf.nodup]
    by_cases hpeer : w.peerOf p = some q
    · have hout : (w.departed p).roomOf q = none := by
        rw [World.departed_roomOf, if_pos (.inr hpeer)]
      have hin : (w.leaving p).roomOf q = none := if_pos hpeer
      rw [if_pos hpeer, if_pos ⟨hq, hin⟩]
      obtain ⟨-, s, hps, hqs⟩ := hw.tidy.peer_room hpeer
      have hback := hw.wf.peerOf_eq hqs hps hqp.symm
      obtain ⟨role, rfl⟩ := h.playing hw hback hqs
      exact left hout role _
    · have hin : (w.leaving p).roomOf q = w.roomOf q := if_neg hpeer
      have hseat : Seat (w.departed p) q φ := h.congr (hroom hpeer) fun _ _ => rfl
      rw [if_neg hpeer, hin, List.nil_append]
      by_cases hr : w.roomOf q = none
      · rw [if_pos ⟨hq, hr⟩]
        exact rooms hseat ((hroom hpeer).trans hr) _
      · rw [if_neg fun h => hr h.2]
        exact nothing hseat

end Tells

/-- **Bystanders.** An event of others takes a player where the lines it is written by it take its
page. -/
theorem bystander {w : World} (hw : Orderly w) {l : Label} (hd : Disciplined l w)
    (hc : CodeLeft l w) {q : PlayerId} (hq : q ∈ w.players) (hspares : Spares q l.2)
    (hutf8 : ∀ p m, l.2 = .message p m → Utf8 m) {φ : Phase} (h : Seat w q φ) :
    Tells (Signaling.step l w) q (inbox q (sent l w)) φ := by
  have hw' := hw.step hd hc
  obtain ⟨w', he, hs⟩ := step_effect hw.wf l
  rw [hs] at hw' ⊢
  replace hw' := hw'.of_emit
  refine Tells.emit ?_ _
  generalize sent l w = ps at he
  obtain ⟨o, e⟩ := l
  have other : ∀ {p : PlayerId} {k : Packet}, p ≠ q → inbox q [(p, k)] = [] := fun hp => by
    simp [hp.symm]
  cases he with
  | connect => exact .nothing (h.congr (by rw [hw.wf.roomOf_register]) fun _ _ => rfl)
  | goneMessage | goneDisconnect => exact .nothing h
  | list | joinFailed | relayFailed | unknown => rw [other hspares]; exact .nothing h
  | create p m hp => exact .create h hw hw'.wf hq hspares.symm o
  | join p m body r hp hv hj => exact .join h hw hw'.wf hq hspares.symm hj o
  | relay p m body x hp hv hx =>
    by_cases hqx : x = q
    · subst hqx
      obtain ⟨hne, r, hpr, hxr⟩ := hw.tidy.peer_room hx
      obtain ⟨role, rfl⟩ := h.playing hw (hw.wf.peerOf_eq hxr hpr hne.symm) hxr
      have hbody := (utf8_relay hv).mp (hutf8 p m rfl)
      simpa using Tells.relayed h hxr hbody
    · rw [other hqx]
      exact .nothing h
  | disconnect p hp => exact .disconnect h hw hq hspares.symm o

end PongPp.Session
