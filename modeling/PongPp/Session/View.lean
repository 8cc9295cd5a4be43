import PongPp.Session.Phase

/-!
# What a page shows

`Shows` is what a page looks like in a phase. What comes down the connection changes the page as it
changes the phase (`deliver_shows`), and a patient user leaves the page in its phase, but for a
request that takes it from `idle` to `asking` (`happen_shows`).
-/

namespace PongPp.Session

open Function Lib Signaling

/-! ## What a line means to a page -/

/-- The call that a line leads to. -/
inductive Means : Msg → Web.Call → Prop where
  | rooms (codes : List RoomCode) : Means (.rooms codes) (.onRooms (codes.map decimal))
  | created (code : RoomCode) : Means (.created code) (.onCreated (decimal code))
  | readyHost : Means .readyHost (.onReady .host)
  | readyGuest : Means .readyGuest (.onReady .guest)
  | relay (body : Web.Str) : Means (.relay (utf8Encode body)) (.onRelay body)
  | peerLeft : Means .peerLeft .onPeerLeft
  | unknownVerb : Means (.error .unknownVerb) (.onError "unknown_verb".toList)
  | joinFailed : Means (.error .joinFailed) (.onError "join_failed".toList)
  | notInRoom : Means (.error .notInRoom) (.onError "not_in_room".toList)

theorem Means.text {msg : Msg} {call : Web.Call} (h : Means msg call) :
    ∃ data, utf8Decode msg.text = some data ∧ Web.Signaling.handleMessage data = some call := by
  cases h with
  | rooms codes =>
    refine ⟨roomsText codes, utf8Decode_eq_some.mpr (utf8Encode_roomsText codes), ?_⟩
    refine Web.Signaling.handleMessage_rooms fun s hs => ?_
    obtain ⟨c, -, rfl⟩ := List.mem_map.mp hs
    exact decimal_word c
  | created code =>
    have hverb : utf8Encode "CREATED ".toList = ascii "CREATED " := utf8Encode_ascii (by decide)
    refine ⟨"CREATED ".toList ++ decimal code, utf8Decode_eq_some.mpr ?_, ?_⟩
    · rw [utf8Encode_append, hverb, utf8Encode_decimal]
      rfl
    · have hsplit : "CREATED ".toList ++ decimal code =
          "CREATED".toList ++ ' ' :: decimal code := rfl
      have hspace : ' ' ∉ "CREATED".toList := by decide
      obtain ⟨hverb, hbody⟩ := split_append hspace (decimal code)
      simp only [Web.Signaling.handleMessage, hsplit, hverb, hbody]
      rfl
  | relay body =>
    refine ⟨Web.Signaling.relay body, utf8Decode_eq_some.mpr ?_,
      Web.Signaling.handleMessage_relay body⟩
    exact Web.Signaling.utf8Encode_relay body
  | readyHost =>
    exact ⟨"READY host".toList, utf8Decode_eq_some.mpr (utf8Encode_ascii (by decide)), by decide⟩
  | readyGuest =>
    exact ⟨"READY guest".toList, utf8Decode_eq_some.mpr (utf8Encode_ascii (by decide)), by decide⟩
  | peerLeft =>
    exact ⟨"PEER_LEFT".toList, utf8Decode_eq_some.mpr (utf8Encode_ascii (by decide)), by decide⟩
  | unknownVerb =>
    exact ⟨"ERROR unknown_verb".toList, utf8Decode_eq_some.mpr (utf8Encode_ascii (by decide)),
      by decide⟩
  | joinFailed =>
    exact ⟨"ERROR join_failed".toList, utf8Decode_eq_some.mpr (utf8Encode_ascii (by decide)),
      by decide⟩
  | notInRoom =>
    exact ⟨"ERROR not_in_room".toList, utf8Decode_eq_some.mpr (utf8Encode_ascii (by decide)),
      by decide⟩

theorem linesOf_onCall (p : Web.Page) (call : Web.Call) :
    Web.linesOf (p.onCall call).2 = [] ∨ Web.linesOf (p.onCall call).2 = [.list] := by
  cases call with
  | onPeerLeft =>
    simp only [Web.Page.onCall, Web.Page.onPeerLeft, Web.Page.linesOf_send]
    split <;> simp
  | _ => exact .inl rfl

theorem hear_eq {c : Client} (hws : c.page.ws = .open) {msg : Msg} {call : Web.Call}
    (h : Means msg call) (room : Option RoomId) :
    c.hear room msg =
      { c.note room call with
        page := (c.page.onCall call).1
        up := c.up ++ (Web.linesOf (c.page.onCall call).2).map ((c.note room call).game, ·) } := by
  obtain ⟨data, hdata, hcall⟩ := h.text
  have hstep : c.page.step (.wsMessage data) = c.page.onCall call := by
    simp only [Web.Page.step, hws, if_true, hcall]
  have hnote : (c.note room call).page = c.page := rfl
  unfold Client.hear
  simp only [hws, hdata, hcall, Client.happen, hnote, hstep]
  rcases linesOf_onCall c.page call with hl | hl <;>
    simp [hl, Client.note, Web.Line.isRequest]

/-! ## The page in a phase -/

/-- A page that is in no game. -/
structure Bare (p : Web.Page) (ws : Web.ReadyState) (screen : Web.Screen) : Prop where
  ws : p.ws = ws
  currentScreen : p.currentScreen = screen
  pc : p.pc = none
  inGame : p.wasm.inGame = false

/-- A page in a game. -/
structure Plays (p : Web.Page) (role : Web.Role) : Prop where
  ws : p.ws = .open
  currentScreen : p.currentScreen = .game
  pc : p.pc = some role
  inGame : p.wasm.inGame = true
  role : p.wasm.role = role.game

/-- What a page looks like, and what its user waits for. -/
def Shows (p : Web.Page) (asked : Bool) (game : Option RoomId) : Phase → Prop
  | .connecting => Bare p .connecting .menu ∧ asked = false
  | .failed => False
  | .idle => Bare p .open .menu ∧ asked = false
  | .asking => Bare p .open .menu ∧ asked = true
  | .waiting _ code => Bare p .open .waiting ∧ asked = false ∧ p.waitingCode = decimal code
  | .playing r role => Plays p role ∧ asked = false ∧ game = some r

abbrev Client.Shows (c : Client) (φ : Phase) : Prop := Session.Shows c.page c.asked c.game φ

/-! ## Delivery -/

/-- What the arrival of the next thing does to a client, whose phase is `φ` then. -/
structure Arrives (c c' : Client) (down : List (Option RoomId × Item)) (φ : Phase) : Prop where
  down : c'.down = down
  upgraded : c'.upgraded = c.upgraded
  view : if φ = .failed then c'.page.ws = .closed else c'.Shows φ
  up : c'.up = c.up ∨ φ = .idle ∧ ∃ game, c'.up = c.up ++ [(game, .list)]

section Arrives

variable {c : Client} {φ φ' : Phase} {room : Option RoomId}
  {down : List (Option RoomId × Item)}

theorem fail_eq (c : Client) :
    c.fail.page.ws = .closed ∧ c.fail.up = c.up ∧ c.fail.down = c.down ∧
      c.fail.upgraded = c.upgraded := by
  obtain ⟨hws, hout⟩ := (c.page.step .wsError).1.step_wsClose
  have herror : (c.page.step .wsError).2 = [] := rfl
  refine ⟨hws, ?_, rfl, rfl⟩
  simp only [Client.fail, Client.happen, herror, hout]
  simp [Web.linesOf]

theorem deliver_line {msg : Msg} (hdown : c.down = (room, .line msg) :: down) :
    c.deliver = { c with down }.hear room msg := by
  unfold Client.deliver
  rw [hdown]

theorem Arrives.call {msg : Msg} {call : Web.Call} (hdown : c.down = (room, .line msg) :: down)
    (hws : c.page.ws = .open) (hm : Means msg call) (hlines : (c.page.onCall call).2 = [])
    (hne : φ ≠ .failed)
    (hview : Session.Shows (c.page.onCall call).1 (c.note room call).asked (c.note room call).game
      φ) :
    Arrives c c.deliver down φ := by
  rw [deliver_line hdown, hear_eq (c := { c with down }) hws hm, hlines]
  exact ⟨rfl, rfl, (if_neg hne).symm ▸ hview, .inl (List.append_nil _)⟩

theorem Bare.listed {p : Web.Page} (h : Bare p .open .menu) :
    (∀ codes, Bare (p.onRooms codes) .open .menu) ∧
      ∀ reason, Bare (p.onError reason) .open .menu := by
  refine ⟨fun codes => ?_, fun reason => ?_⟩
  · rw [show p.onRooms codes = p.renderRoomList codes from if_pos h.currentScreen]
    exact ⟨h.1, h.2, h.3, h.4⟩
  · unfold Web.Page.onError
    simp only
    split_ifs <;> exact ⟨h.1, h.2, h.3, h.4⟩

theorem deliver_response (hb : Bare c.page .connecting .menu) (hasked : c.asked = false)
    (hdown : c.down = (room, .response) :: down) : Arrives c c.deliver down .idle := by
  obtain ⟨hws, hscreen, hpc, hin⟩ := hb
  have hstep : c.page.step .wsOpen = ({ c.page with ws := .open }.setButtonsDisabled false,
      [.line .list]) := by
    simp [Web.Page.step, hws, Web.Page.onOpen, Web.Page.send, Web.Page.setButtonsDisabled]
  have hdel : c.deliver = { c with down }.happen .wsOpen := by
    unfold Client.deliver
    rw [hdown]
    exact if_pos hws
  rw [hdel]
  unfold Client.happen
  simp only [hstep]
  refine ⟨rfl, rfl, ⟨⟨rfl, hscreen, hpc, hin⟩, ?_⟩, .inr ⟨rfl, c.game, rfl⟩⟩
  simp [Web.linesOf, Web.Line.isRequest, hasked]

/-- A line in front of the answer to the upgrade request. -/
theorem deliver_early {msg : Msg} (hws : c.page.ws = .connecting)
    (hdown : c.down = (room, .line msg) :: down) : Arrives c c.deliver down .failed := by
  have hfail : c.deliver = { c with down }.fail := by
    rw [deliver_line hdown]
    unfold Client.hear
    simp only [hws]
  obtain ⟨hws', hup, hdn, hupg⟩ := fail_eq { c with down }
  rw [hfail]
  exact ⟨hdn, hupg, hws', .inl hup⟩

/-- What changes nothing but the menu. -/
theorem Arrives.menu {msg : Msg} {call : Web.Call} (hφ : φ = .idle ∨ φ = .asking)
    (h : c.Shows φ) (hdown : c.down = (room, .line msg) :: down) (hm : Means msg call)
    (hlines : (c.page.onCall call).2 = [])
    (hbare : Bare c.page .open .menu → Bare (c.page.onCall call).1 .open .menu)
    (hasked : (c.note room call).asked = c.asked) : Arrives c c.deliver down φ := by
  rcases hφ with rfl | rfl
  · exact .call hdown h.1.ws hm hlines (by simp) ⟨hbare h.1, hasked.trans h.2⟩
  · exact .call hdown h.1.ws hm hlines (by simp) ⟨hbare h.1, hasked.trans h.2⟩

theorem deliver_rooms {codes : List RoomCode} (hφ : φ = .idle ∨ φ = .asking) (h : c.Shows φ)
    (hdown : c.down = (room, .line (.rooms codes)) :: down) : Arrives c c.deliver down φ :=
  .menu hφ h hdown (.rooms codes) rfl (fun hb => hb.listed.1 _) (Bool.and_true _)

theorem deliver_notInRoom (hφ : φ = .idle ∨ φ = .asking) (h : c.Shows φ)
    (hdown : c.down = (room, .line (.error .notInRoom)) :: down) : Arrives c c.deliver down φ :=
  .menu hφ h hdown .notInRoom rfl (fun hb => hb.listed.2 _) (Bool.and_true _)

section Asking

variable {r : RoomId}

theorem deliver_joinFailed (h : c.Shows .asking)
    (hdown : c.down = (room, .line (.error .joinFailed)) :: down) :
    Arrives c c.deliver down .idle :=
  .call hdown h.1.ws .joinFailed rfl (by simp) ⟨h.1.listed.2 _, Bool.and_false _⟩

theorem deliver_created {code : RoomCode} (h : c.Shows .asking)
    (hdown : c.down = (some r, .line (.created code)) :: down) :
    Arrives c c.deliver down (.waiting r code) := by
  obtain ⟨hb, hasked⟩ := h
  refine .call hdown hb.ws (.created code) rfl (by simp) ⟨?_, Bool.and_false _, rfl⟩
  exact ⟨hb.1, rfl, hb.3, hb.4⟩

theorem deliver_readyGuest (h : c.Shows .asking)
    (hdown : c.down = (some r, .line .readyGuest) :: down) :
    Arrives c c.deliver down (.playing r .guest) := by
  refine .call hdown h.1.ws .readyGuest rfl (by simp) ⟨?_, Bool.and_false _, rfl⟩
  exact ⟨h.1.1, rfl, rfl, rfl, rfl⟩

theorem deliver_readyHost {code : RoomCode} (h : c.Shows (.waiting r code))
    (hdown : c.down = (some r, .line .readyHost) :: down) :
    Arrives c c.deliver down (.playing r .host) := by
  refine .call hdown h.1.ws .readyHost rfl (by simp) ⟨?_, Bool.and_false _, rfl⟩
  exact ⟨h.1.1, rfl, rfl, rfl, rfl⟩

end Asking

section Playing

variable {r : RoomId} {role : Web.Role}

theorem deliver_relay {body : Bytes} (h : c.Shows (.playing r role))
    (hbody : (utf8Decode body).isSome = true)
    (hdown : c.down = (room, .line (.relay body)) :: down) :
    Arrives c c.deliver down (.playing r role) := by
  obtain ⟨hp, hasked, hgame⟩ := h
  obtain ⟨s, hs⟩ := Option.isSome_iff_exists.mp hbody
  obtain rfl := utf8Decode_eq_some.mp hs
  refine .call hdown hp.ws (.relay s) rfl (by simp) ⟨⟨hp.1, hp.2, hp.3, hp.4, hp.5⟩, ?_, hgame⟩
  exact (Bool.and_true _).trans hasked

/-- The page goes back to the menu, and asks for the rooms. -/
theorem deliver_peerLeft (h : c.Shows (.playing r role))
    (hdown : c.down = (room, .line .peerLeft) :: down) : Arrives c c.deliver down .idle := by
  obtain ⟨hp, hasked, -⟩ := h
  have hlines : Web.linesOf (c.page.onCall .onPeerLeft).2 = [.list] :=
    (Web.Page.linesOf_send _ _).trans (if_pos hp.ws)
  rw [deliver_line hdown, hear_eq (c := { c with down }) hp.ws .peerLeft, hlines]
  refine ⟨rfl, rfl, ⟨⟨hp.ws, rfl, rfl, rfl⟩, ?_⟩, .inr ⟨rfl, none, rfl⟩⟩
  exact (Bool.and_true _).trans hasked

end Playing

end Arrives

/-- **Delivery.** What comes next takes the page where it takes the phase. -/
theorem deliver_shows {c : Client} {φ φ' : Phase} (h : c.Shows φ) {x : Option RoomId × Item}
    {down : List (Option RoomId × Item)} (hdown : c.down = x :: down) (hx : φ.next x = some φ') :
    Arrives c c.deliver down φ' := by
  obtain ⟨room, item⟩ := x
  cases φ with
  | connecting =>
    cases item with
    | response => cases hx; exact deliver_response h.1 h.2 hdown
    | line msg => cases hx; exact deliver_early h.1.ws hdown
  | failed => exact h.elim
  | idle =>
    cases item with
    | response => cases hx
    | line msg =>
      cases msg with
      | rooms codes => cases hx; exact deliver_rooms (.inl rfl) h hdown
      | error reason =>
        cases reason with
        | notInRoom => cases hx; exact deliver_notInRoom (.inl rfl) h hdown
        | _ => cases hx
      | _ => cases hx
  | asking =>
    cases item with
    | response => cases hx
    | line msg =>
      cases msg with
      | rooms codes => cases hx; exact deliver_rooms (.inr rfl) h hdown
      | created code =>
        cases room with
        | none => cases hx
        | some r => cases hx; exact deliver_created h hdown
      | readyGuest =>
        cases room with
        | none => cases hx
        | some r => cases hx; exact deliver_readyGuest h hdown
      | error reason =>
        cases reason with
        | notInRoom => cases hx; exact deliver_notInRoom (.inr rfl) h hdown
        | joinFailed => cases hx; exact deliver_joinFailed h hdown
        | unknownVerb => cases hx
      | _ => cases hx
  | waiting r code =>
    cases item with
    | response => cases hx
    | line msg =>
      cases msg with
      | readyHost =>
        obtain ⟨rfl, heq⟩ := Option.ite_none_right_eq_some.mp hx
        cases heq
        exact deliver_readyHost h hdown
      | _ => cases hx
  | playing r role =>
    cases item with
    | response => cases hx
    | line msg =>
      cases msg with
      | relay body =>
        obtain ⟨⟨-, hdec⟩, heq⟩ := Option.ite_none_right_eq_some.mp hx
        cases heq
        exact deliver_relay h hdec hdown
      | peerLeft => cases hx; exact deliver_peerLeft h hdown
      | _ => cases hx

/-! ## Users -/

theorem Shows.of_core {p p' : Web.Page} {asked : Bool} {game : Option RoomId} {φ : Phase}
    (h : Shows p asked game φ) (hcore : Web.SameCore p p') : Shows p' asked game φ := by
  have bare : ∀ {ws screen}, Bare p ws screen → Bare p' ws screen := fun hb =>
    ⟨hcore.ws.trans hb.1, hcore.currentScreen.trans hb.2, hcore.pc.trans hb.3,
      hcore.inGame.trans hb.4⟩
  cases φ with
  | failed => exact h
  | waiting r code => exact ⟨bare h.1, h.2.1, hcore.waitingCode.trans h.2.2⟩
  | playing r role =>
    obtain ⟨hp, h⟩ := h
    exact ⟨⟨hcore.ws.trans hp.1, hcore.currentScreen.trans hp.2, hcore.pc.trans hp.3,
      hcore.inGame.trans hp.4, hcore.role.trans hp.5⟩, h⟩
  | _ => exact ⟨bare h.1, h.2⟩

/-- What somebody at the page does: nothing to the phase, or a request, or an envelope. -/
inductive Acts (c c' : Client) : Phase → Phase → Prop where
  | stays (φ : Phase) : c'.up = c.up → c'.said = c.said → Acts c c' φ φ
  | asks (line : Web.Line) : line.isRequest = true → c'.up = c.up ++ [(c.game, line)] →
      c'.said = c.said → Acts c c' .idle .asking
  | signals (r : RoomId) (role : Web.Role) (body : Web.Str) : Server.Endable body →
      c'.up = c.up ++ [(some r, .relay body)] → c'.said = c.said ++ [(r, body)] →
      Acts c c' (.playing r role) (.playing r role)

theorem happen_eq {c : Client} {e : Web.Event} {lines : List Web.Line}
    (h : Web.linesOf (c.page.step e).2 = lines) :
    c.happen e =
      { c with
        page := (c.page.step e).1
        up := c.up ++ lines.map (c.game, ·)
        asked := c.asked || lines.any (·.isRequest)
        said := c.said ++ lines.filterMap fun
          | .relay body => c.game.map (·, body)
          | _ => none } := by
  subst h
  rfl

/-- **Users.** A patient user leaves the page in its phase, asks from the menu, or gives up. -/
theorem happen_shows {c : Client} {φ : Phase} (h : c.Shows φ) {e : Web.Event}
    (he : e.isLocal = true)
    (hask : (Web.linesOf (c.page.step e).2).any (·.isRequest) = true → c.asked = false)
    (hend : Envelope e) :
    ((c.happen e).page.ws = .closing ∧ (c.happen e).up = c.up ∧ (c.happen e).said = c.said) ∨
      ∃ φ', (c.happen e).Shows φ' ∧ Acts c (c.happen e) φ φ' := by
  rcases c.page.step_local he with hcore | ⟨hscreen, rfl, hstep⟩
  · have hsays := c.page.says_local he
    generalize hl : Web.linesOf (c.page.step e).2 = lines at hsays hask
    rw [happen_eq hl]
    cases hsays with
    | nothing => exact .inr ⟨φ, by simpa using h.of_core hcore, .stays φ (by simp) (by simp)⟩
    | signal body hws hpc =>
      obtain ⟨r, role, rfl⟩ : ∃ r role, φ = .playing r role := by
        cases φ with
        | playing r role => exact ⟨r, role, rfl⟩
        | failed => exact h.elim
        | _ => rw [h.1.pc] at hpc; cases hpc
      have hgame : c.game = some r := h.2.2
      refine .inr ⟨_, ?_, .signals r role body hend ?_ ?_⟩
      · simpa [Web.Line.isRequest] using h.of_core hcore
      · simp [hgame]
      · simp [hgame]
    | request _ line hws hscreen hline =>
      have hasked : c.asked = false := hask (by simp [hline])
      have hsaid : c.said ++ [line].filterMap (fun
          | .relay body => c.game.map (·, body)
          | _ => none) = c.said := by
        cases line with
        | relay => cases hline
        | _ => exact List.append_nil _
      obtain rfl : φ = .idle := by
        cases φ with
        | idle => rfl
        | asking => exact absurd (hasked.symm.trans h.2) (by simp)
        | connecting => exact absurd (hws.symm.trans h.1.ws) (by simp)
        | failed => exact h.elim
        | waiting => exact absurd (hscreen.symm.trans h.1.currentScreen) (by simp)
        | playing => exact absurd (hscreen.symm.trans h.1.currentScreen) (by simp)
      refine .inr ⟨.asking, ⟨(h.of_core hcore).1, ?_⟩, .asks line hline rfl hsaid⟩
      simp [hline]
  · have hlines : Web.linesOf (c.page.step .clickCancel).2 = [] := by
      simp [Web.Page.step, hscreen, Web.linesOf]
    rw [happen_eq hlines]
    refine .inl ⟨?_, by simp, by simp⟩
    have hws : c.page.ws = .open := by
      cases φ with
      | waiting => exact h.1.ws
      | failed => exact h.elim
      | _ => exact absurd (hscreen.symm.trans h.1.currentScreen) (by simp)
    rw [hstep, Web.Page.clickCancel_ws, if_pos (.inr hws)]

/-- Nobody is heard from a page whose socket is closing or closed. -/
theorem happen_ended {c : Client} (hws : c.page.ws = .closing ∨ c.page.ws = .closed)
    {e : Web.Event} (he : e.isLocal = true) :
    (c.happen e).page.ws = c.page.ws ∧ (c.happen e).up = c.up ∧ (c.happen e).said = c.said := by
  have hno : c.page.ws ≠ .open := by rcases hws with h | h <;> rw [h] <;> exact nofun
  have hlines : Web.linesOf (c.page.step e).2 = [] := by
    have hsays := c.page.says_local he
    generalize Web.linesOf (c.page.step e).2 = lines at hsays
    cases hsays with
    | nothing => rfl
    | signal _ h | request _ _ h => exact absurd h hno
  rw [happen_eq hlines]
  refine ⟨?_, by simp, by simp⟩
  rcases c.page.step_local he with hcore | ⟨-, rfl, hstep⟩
  · exact hcore.ws
  · have hconn : ¬ (c.page.ws = .connecting ∨ c.page.ws = .open) := by
      rcases hws with h | h <;> rw [h] <;> exact nofun
    rw [hstep, Web.Page.clickCancel_ws, if_neg hconn]

theorem deliver_ended {c : Client} (hws : c.page.ws = .closing ∨ c.page.ws = .closed) :
    c.deliver = { c with down := c.down.tail } := by
  unfold Client.deliver
  split
  · rename_i hnil
    have htail : c.down.tail = c.down := by rw [hnil, List.tail_nil]
    rw [htail]
  · rename_i room item down hcons
    rw [hcons, List.tail_cons]
    cases item with
    | response => exact if_neg (by rcases hws with h | h <;> simp [h])
    | line msg =>
      unfold Client.hear
      rcases hws with h | h <;> simp only [h]

theorem lost_eq (c : Client) :
    (c.happen .wsClose).page.ws = .closed ∧ (c.happen .wsClose).up = c.up ∧
      (c.happen .wsClose).said = c.said := by
  obtain ⟨hws, hout⟩ := c.page.step_wsClose
  refine ⟨hws, ?_, ?_⟩ <;> simp only [Client.happen, hout] <;> simp [Web.linesOf]

end PongPp.Session
