import PongPp.Game.Court
import PongPp.Web.Keys

/-!
# The page

`loader.ts` as a state machine, with the state of `Signaling` and `Rtc` that it drives. A handler
gives the page it leaves and what it hands to the signaling socket and the data channel. What the
browser itself decides (the negotiation, when frames are drawn and timers run out) comes in as
events; it fires no `message` on a socket that is not open, no `click` on a button that is
disabled or not shown, and nothing on an `RTCPeerConnection` that is closed.
-/

namespace PongPp.Web

/-! ## Lines and elements -/

/-- The outbound verbs of `Signaling`. -/
inductive Line where
  | list
  | create
  | join (code : Str)
  | relay (body : Str)
  deriving DecidableEq, Repr

def Line.text : Line → Str
  | .list => Signaling.list
  | .create => Signaling.create
  | .join code => Signaling.join code
  | .relay body => Signaling.relay body

/-- What is handed to the signaling socket, and to the data channel. -/
inductive Out where
  | line (line : Line)
  | peer (text : Bytes)
  deriving DecidableEq, Repr

/-- The lines among what a page puts out. -/
def linesOf (outs : List Out) : List Line :=
  outs.filterMap fun
    | .line line => some line
    | .peer _ => none

/-- The lines that ask for a seat. -/
def Line.isRequest : Line → Bool
  | .create | .join _ => true
  | _ => false

inductive Screen where
  | menu
  | waiting
  | game
  deriving DecidableEq, Repr

/-- `readyState` of a `WebSocket` or an `RTCDataChannel`. -/
inductive ReadyState where
  | connecting
  | open
  | closing
  | closed
  deriving DecidableEq, Repr

/-- The class of `rtc-status`. -/
inductive StatusClass where
  | open
  | closed
  deriving DecidableEq, Repr

/-- A `.join-room-btn`. -/
structure RoomButton where
  code : Str
  disabled : Bool
  deriving DecidableEq, Repr

/-- `RTCPeerConnectionState`. -/
inductive ConnectionState where
  | new
  | connecting
  | connected
  | disconnected
  | failed
  | closed
  deriving DecidableEq, Repr

def Role.game : Role → Game.Role
  | .host => .host
  | .guest => .guest

structure Page where
  /-- `Signaling.ws`, closed when it is null. -/
  ws : ReadyState
  currentScreen : Screen
  hostDisabled : Bool
  joinDisabled : Bool
  roomList : List RoomButton
  joinInput : Str
  waitingCode : Str
  errorBanner : Str
  rtcStatus : Str × Option StatusClass
  /-- `Rtc.pc`: the role it was made for. -/
  pc : Option Role
  /-- `Rtc.dc`. -/
  dc : Option ReadyState
  keyboard : Keyboard
  wasm : Game.Engine

/-- The page when `loader.ts` has run. -/
def Page.init : Page where
  ws := .connecting
  currentScreen := .menu
  hostDisabled := true
  joinDisabled := true
  roomList := []
  joinInput := []
  waitingCode := []
  errorBanner := []
  rtcStatus := ("connecting…".toList, none)
  pc := none
  dc := none
  keyboard := .init
  wasm := Game.Engine.zero.init

namespace Page

variable (p : Page)

/-! ## Screen state -/

def showScreen (next : Screen) : Page := { p with currentScreen := next }

def setRtcStatus (text : String) (cls : Option StatusClass) : Page :=
  { p with rtcStatus := (text.toList, cls) }

def showError (msg : String) : Page := { p with errorBanner := msg.toList }

def setButtonsDisabled (disabled : Bool) : Page :=
  { p with hostDisabled := disabled
           joinDisabled := disabled
           roomList := p.roomList.map fun b => { b with disabled } }

def renderRoomList (codes : List Str) : Page :=
  { p with roomList := codes.map fun code => ⟨code, false⟩ }

/-! ## Signaling and Rtc -/

/-- `Signaling.send`. -/
def send (line : Line) : List Out := if p.ws = .open then [.line line] else []

/-- `Signaling.close`. -/
def closeSignaling : Page :=
  { p with ws := if p.ws = .connecting ∨ p.ws = .open then .closing else p.ws }

/-- `Rtc.close`. -/
def closeRtc : Page := { p with pc := none, dc := none }

/-- `Rtc.init`, up to the first `await`. -/
def initRtc (role : Role) : Page :=
  { p.closeRtc with pc := some role
                    dc := match role with
                      | .host => some .connecting
                      | .guest => none }

/-- `Rtc.send`. -/
def sendPeer (text : Bytes) : List Out := if p.dc = some .open then [.peer text] else []

def stopGame : Page := { p with wasm := p.wasm.stopGame }

def stopIfGame : Page := if p.currentScreen = .game then p.stopGame else p

/-! ## Signaling lifecycle -/

def onOpen : Page × List Out :=
  let p := p.setButtonsDisabled false
  (p, p.send .list)

def onClose : Page := p.closeRtc.stopIfGame.showError "disconnected — reload to reconnect"

def onWsError : Page := p.showError "connection error — reload to reconnect"

def onRooms (codes : List Str) : Page :=
  if p.currentScreen = .menu then p.renderRoomList codes else p

def onCreated (code : Str) : Page := { p.showScreen .waiting with waitingCode := code }

def onReady (role : Role) : Page :=
  let p := ((p.showScreen .game).setRtcStatus "connecting…" none).initRtc role
  { p with wasm := p.wasm.startGame role.game }

def onPeerLeft : Page × List Out :=
  let p := (p.closeRtc.stopGame.showScreen .menu).setButtonsDisabled false
  let p := p.showError "opponent left the game"
  (p, p.send .list)

def onError (reason : Str) : Page :=
  let p :=
    if reason = "join_failed".toList then p.showError "room not found or already full"
    else if reason = "could_not_allocate_room".toList then p.showError "could not create room"
    else p.showError "server error"
  p.setButtonsDisabled false

/-- The hooks of `handleMessage`; `onRelay` hands its body to the browser, if there is a `pc`. -/
def onCall : Call → Page × List Out
  | .onRooms codes => (p.onRooms codes, [])
  | .onCreated code => (p.onCreated code, [])
  | .onReady role => (p.onReady role, [])
  | .onPeerLeft => p.onPeerLeft
  | .onError reason => (p.onError reason, [])
  | .onRelay _ => (p, [])

/-! ## Data channel -/

def dcOpen : Page :=
  { p with dc := p.dc.map fun _ => .open }.setRtcStatus "p2p connected" (some .open)

def dcClose : Page :=
  { p with dc := p.dc.map fun _ => .closed }.setRtcStatus "p2p closed" (some .closed)

/-- `rtc.onMessage`, and what it calls. -/
def onMessage (text : Str) : Page := { p with wasm := p.wasm.message (utf8Encode text) }

def onConnectionStateChange : ConnectionState → Page
  | .failed => p.setRtcStatus "p2p failed" (some .closed)
  | .disconnected => p.setRtcStatus "p2p disconnected" (some .closed)
  | _ => p

/-! ## DOM events -/

def clickHost : Page × List Out :=
  let p := p.setButtonsDisabled true
  (p, p.send .create)

def clickCancel : Page :=
  ((p.setButtonsDisabled true).closeRtc.stopIfGame.closeSignaling).showScreen .menu

def attemptJoin : Page × List Out :=
  let code := p.joinInput
  if code = [] then (p.showError "enter a room code", [])
  else if !code.all Char.isDigit then (p.showError "room code must be a number", [])
  else
    let p := p.setButtonsDisabled true
    (p, p.send (.join code))

def input (value : Str) : Page := { p with joinInput := value.filter Char.isDigit }

/-- One animation frame. -/
def frame : Page × List Out :=
  let (wasm, line) := p.wasm.tick ⟨p.keyboard.paddleDirX, p.keyboard.paddleDirY⟩
  ({ p with wasm }, line.elim [] p.sendPeer)

end Page

/-! ## Events -/

/-- What happens to a page. -/
inductive Event where
  | wsOpen
  | wsError
  | wsClose
  | wsMessage (data : Str)
  /-- `sendSignal` of an envelope, as JSON. -/
  | signal (body : Str)
  | dataChannel (state : ReadyState)
  | dcOpen
  | dcClose
  | dcMessage (text : Str)
  | connectionState (state : ConnectionState)
  | clickHost
  | clickJoin
  | clickRoom (i : Nat)
  | clickCancel
  /-- Enter in `join-input`. -/
  | enter
  | input (value : Str)
  | key (e : KeyEvent)
  | frame
  deriving DecidableEq, Repr

/-- Everything but what the socket itself does. -/
def Event.isLocal : Event → Bool
  | .wsOpen | .wsClose | .wsMessage _ => false
  | _ => true

namespace Page

def step (e : Event) (p : Page) : Page × List Out :=
  match e with
  | .wsOpen => if p.ws = .connecting then { p with ws := .open }.onOpen else (p, [])
  | .wsError => (p.onWsError, [])
  | .wsClose => if p.ws = .closed then (p, []) else ({ p with ws := .closed }.onClose, [])
  | .wsMessage data =>
    if p.ws = .open then
      match Signaling.handleMessage data with
      | some call => p.onCall call
      | none => (p, [])
    else (p, [])
  | .signal body => (p, if p.pc.isSome then p.send (.relay body) else [])
  | .dataChannel state =>
    (if p.pc = some .guest then { p with dc := some state } else p, [])
  | .dcOpen => (p.dcOpen, [])
  | .dcClose => (p.dcClose, [])
  | .dcMessage text => (p.onMessage text, [])
  | .connectionState state =>
    (if p.pc.isSome then p.onConnectionStateChange state else p, [])
  | .clickHost =>
    if p.currentScreen = .menu ∧ p.hostDisabled = false then p.clickHost else (p, [])
  | .clickJoin =>
    if p.currentScreen = .menu ∧ p.joinDisabled = false then p.attemptJoin else (p, [])
  | .clickRoom i =>
    match p.roomList[i]? with
    | some b =>
      (p, if p.currentScreen = .menu ∧ b.disabled = false then p.send (.join b.code) else [])
    | none => (p, [])
  | .clickCancel => if p.currentScreen = .waiting then (p.clickCancel, []) else (p, [])
  | .enter => if p.currentScreen = .menu then p.attemptJoin else (p, [])
  | .input value => (p.input value, [])
  | .key e => ({ p with keyboard := p.keyboard.step e }, [])
  | .frame => p.frame

end Page

/-! ## What a page does by itself -/

/-- Two pages that differ in nothing that the signaling server has a say in. -/
structure SameCore (p p' : Page) : Prop where
  ws : p'.ws = p.ws
  currentScreen : p'.currentScreen = p.currentScreen
  waitingCode : p'.waitingCode = p.waitingCode
  codes : p'.roomList.map (·.code) = p.roomList.map (·.code)
  pc : p'.pc = p.pc
  inGame : p'.wasm.inGame = p.wasm.inGame
  role : p'.wasm.role = p.wasm.role

namespace SameCore

variable (p : Page)

theorem refl : SameCore p p := ⟨rfl, rfl, rfl, rfl, rfl, rfl, rfl⟩

theorem setButtonsDisabled (b : Bool) : SameCore p (p.setButtonsDisabled b) :=
  ⟨rfl, rfl, rfl, by simp [Page.setButtonsDisabled], rfl, rfl, rfl⟩

theorem showError (msg : String) : SameCore p (p.showError msg) :=
  ⟨rfl, rfl, rfl, rfl, rfl, rfl, rfl⟩

theorem setRtcStatus (text : String) (cls : Option StatusClass) :
    SameCore p (p.setRtcStatus text cls) :=
  ⟨rfl, rfl, rfl, rfl, rfl, rfl, rfl⟩

theorem attemptJoin : SameCore p p.attemptJoin.1 := by
  unfold Page.attemptJoin
  simp only
  split_ifs
  · exact showError p _
  · exact showError p _
  · exact setButtonsDisabled p true

theorem onConnectionStateChange (s : ConnectionState) :
    SameCore p (p.onConnectionStateChange s) := by
  cases s <;> first | exact setRtcStatus p _ _ | exact .refl p

theorem onMessage (text : Str) : SameCore p (p.onMessage text) :=
  ⟨rfl, rfl, rfl, rfl, rfl, Game.inGame_message _ _, Game.role_message _ _⟩

theorem frame : SameCore p p.frame.1 :=
  ⟨rfl, rfl, rfl, rfl, rfl, Game.inGame_tick _ _, Game.role_tick _ _⟩

end SameCore

namespace Page

variable (p : Page)

/-- What a page does by itself leaves that alone, but for a cancelled wait. -/
theorem step_local {e : Event} (he : e.isLocal = true) :
    SameCore p (p.step e).1 ∨
      p.currentScreen = .waiting ∧ e = .clickCancel ∧ (p.step e).1 = p.clickCancel := by
  cases e with
  | wsOpen | wsClose | wsMessage => cases he
  | clickCancel =>
    by_cases h : p.currentScreen = .waiting
    · exact .inr ⟨h, rfl, by simp [step, h]⟩
    · refine .inl ?_
      simp only [step, if_neg h]
      exact .refl p
  | clickHost =>
    refine .inl ?_
    simp only [step]
    split
    · exact .setButtonsDisabled p true
    · exact .refl p
  | clickJoin =>
    refine .inl ?_
    simp only [step]
    split
    · exact .attemptJoin p
    · exact .refl p
  | enter =>
    refine .inl ?_
    simp only [step]
    split
    · exact .attemptJoin p
    · exact .refl p
  | clickRoom i =>
    refine .inl ?_
    simp only [step]
    split <;> exact .refl p
  | dataChannel state =>
    refine .inl ?_
    simp only [step]
    split
    · exact ⟨rfl, rfl, rfl, rfl, rfl, rfl, rfl⟩
    · exact .refl p
  | connectionState state =>
    refine .inl ?_
    simp only [step]
    split
    · exact .onConnectionStateChange p state
    · exact .refl p
  | dcMessage text => exact .inl (.onMessage p text)
  | frame => exact .inl (.frame p)
  | wsError | signal | dcOpen | dcClose | input | key =>
    exact .inl ⟨rfl, rfl, rfl, rfl, rfl, rfl, rfl⟩

/-- What a page says by itself, if anything: an envelope while there is a peer connection, one
request on the menu. -/
inductive Says : Event → List Line → Prop where
  | nothing (e : Event) : Says e []
  | signal (body : Str) : p.ws = .open → p.pc.isSome = true → Says (.signal body) [.relay body]
  | request (e : Event) (line : Line) : p.ws = .open → p.currentScreen = .menu →
      line.isRequest = true → Says e [line]

theorem linesOf_send (line : Line) :
    linesOf (p.send line) = if p.ws = .open then [line] else [] := by
  unfold send
  split <;> rfl

theorem Says.of_send {e : Event} {line : Line} (hscreen : p.currentScreen = .menu)
    (hline : line.isRequest = true) : p.Says e (linesOf (p.send line)) := by
  rw [linesOf_send]
  split
  · exact .request e line ‹_› hscreen hline
  · exact .nothing e

theorem says_attemptJoin {e : Event} (hscreen : p.currentScreen = .menu) :
    p.Says e (linesOf p.attemptJoin.2) := by
  unfold attemptJoin
  simp only
  split_ifs
  · exact .nothing e
  · exact .nothing e
  · exact .of_send p hscreen rfl

theorem says_local {e : Event} (he : e.isLocal = true) : p.Says e (linesOf (p.step e).2) := by
  cases e with
  | wsOpen | wsClose | wsMessage => cases he
  | signal body =>
    simp only [step]
    split
    · rw [linesOf_send]
      split
      · exact .signal body ‹_› ‹_›
      · exact .nothing _
    · exact .nothing _
  | clickHost =>
    simp only [step]
    split
    · rename_i h
      exact .of_send p h.1 rfl
    · exact .nothing _
  | clickJoin =>
    simp only [step]
    split
    · rename_i h
      exact says_attemptJoin p h.1
    · exact .nothing _
  | enter =>
    simp only [step]
    split
    · rename_i h
      exact says_attemptJoin p h
    · exact .nothing _
  | clickRoom i =>
    simp only [step]
    split
    · split
      · rename_i h
        exact .of_send p h.1 rfl
      · exact .nothing _
    · exact .nothing _
  | clickCancel =>
    simp only [step]
    split <;> exact .nothing _
  | frame =>
    simp only [step, frame]
    cases (p.wasm.tick _).2 with
    | none => exact .nothing _
    | some text =>
      simp only [Option.elim, sendPeer]
      split <;> exact .nothing _
  | _ => exact .nothing _

theorem stopIfGame_ws : p.stopIfGame.ws = p.ws := by
  unfold stopIfGame
  split <;> rfl

theorem clickCancel_ws : p.clickCancel.ws =
    if p.ws = .connecting ∨ p.ws = .open then .closing else p.ws := by
  have hstop := ((p.setButtonsDisabled true).closeRtc).stopIfGame_ws
  simp only [clickCancel, showScreen, closeSignaling, hstop]
  rfl

theorem step_wsClose : (p.step .wsClose).1.ws = .closed ∧ (p.step .wsClose).2 = [] := by
  simp only [step]
  split
  · exact ⟨‹_›, rfl⟩
  · exact ⟨stopIfGame_ws _, rfl⟩

/-- A page whose socket is not open says nothing, and only the browser opens the socket. -/
theorem step_shut {e : Event} (he : e ≠ .wsOpen) (h : p.ws ≠ .open) :
    linesOf (p.step e).2 = [] ∧ (p.step e).1.ws ≠ .open := by
  by_cases hloc : e.isLocal = true
  · refine ⟨?_, ?_⟩
    · have hsays := p.says_local hloc
      generalize linesOf (p.step e).2 = lines at hsays
      cases hsays with
      | nothing => rfl
      | signal _ hws | request _ _ hws => exact absurd hws h
    · rcases p.step_local hloc with hcore | ⟨-, -, hstep⟩
      · rw [hcore.ws]
        exact h
      · rw [hstep, clickCancel_ws]
        split
        · exact ReadyState.noConfusion
        · exact h
  · cases e with
    | wsOpen => exact absurd rfl he
    | wsClose =>
      obtain ⟨hws, hout⟩ := p.step_wsClose
      rw [hws, hout]
      exact ⟨rfl, ReadyState.noConfusion⟩
    | wsMessage data =>
      simp only [step, if_neg h]
      exact ⟨rfl, h⟩
    | _ => exact absurd rfl hloc

theorem step_ended {e : Event} (h : p.ws = .closing ∨ p.ws = .closed) :
    linesOf (p.step e).2 = [] ∧ ((p.step e).1.ws = .closing ∨ (p.step e).1.ws = .closed) := by
  have hopen : p.ws ≠ .open := by rcases h with h | h <;> rw [h] <;> exact ReadyState.noConfusion
  have hconn : p.ws ≠ .connecting := by
    rcases h with h | h <;> rw [h] <;> exact ReadyState.noConfusion
  by_cases he : e = .wsOpen
  · subst he
    simp only [step, if_neg hconn]
    exact ⟨rfl, h⟩
  · refine ⟨(p.step_shut he hopen).1, ?_⟩
    by_cases hloc : e.isLocal = true
    · rcases p.step_local hloc with hcore | ⟨-, -, hstep⟩
      · rw [hcore.ws]
        exact h
      · rw [hstep, clickCancel_ws, if_neg (not_or.mpr ⟨hconn, hopen⟩)]
        exact h
    · cases e with
      | wsOpen => exact absurd rfl he
      | wsClose => exact .inr p.step_wsClose.1
      | wsMessage data =>
        simp only [step, if_neg hopen]
        exact h
      | _ => exact absurd rfl hloc

end Page

end PongPp.Web
