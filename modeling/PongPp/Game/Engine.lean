import Mathlib.Data.Rat.Cast.Order
import Mathlib.Data.Sign.Defs
import PongPp.Game.Numeral

/-!
# The game engine

The state and the exports of the client engine. A `float` is read as an exact rational and an
`int` as an integer that wraps at 32 bits; drawing is left out, but for the score texts. A line
is what `send_state` or `send_paddle` hands to `peer_send`.
-/

namespace PongPp.Game

/-! ## Constants -/

def canvasW : ℚ := 800
def canvasH : ℚ := 600
def halfW : ℚ := canvasW / 2
def ballSize : ℚ := 14
def paddleW : ℚ := 12
def paddleH : ℚ := 90
/-- Distance from the canvas edge to the home position. -/
def paddleInset : ℚ := 24
def leftHomeX : ℚ := paddleInset
def rightHomeX : ℚ := canvasW - paddleInset - paddleW
def paddleSpeedY : ℚ := 6
def paddleSpeedX : ℚ := 4
def leftXMin : ℚ := 0
def leftXMax : ℚ := halfW - paddleW
def rightXMin : ℚ := halfW
def rightXMax : ℚ := canvasW - paddleW
def ballSpeedX : ℚ := 5
def ballSpeedY : ℚ := 3
def maxBallVx : ℚ := 14
/-- The fraction of a paddle's x-velocity that goes into the ball's. -/
def paddleBoost : ℚ := 3 / 5

def msgBufSize : Nat := 256

theorem constants : canvasW = 800 ∧ canvasH = 600 ∧ halfW = 400 ∧ ballSize = 14 ∧ paddleW = 12 ∧
    paddleH = 90 ∧ leftHomeX = 24 ∧ rightHomeX = 764 ∧ paddleSpeedX = 4 ∧ paddleSpeedY = 6 ∧
    leftXMin = 0 ∧ leftXMax = 388 ∧ rightXMin = 400 ∧ rightXMax = 788 ∧ ballSpeedX = 5 ∧
    ballSpeedY = 3 ∧ maxBallVx = 14 ∧ paddleBoost = 3 / 5 := by
  decide +kernel

/-! ## The state -/

inductive Role where
  | host
  | guest
  deriving DecidableEq, Repr

structure Engine where
  inGame : Bool
  role : Role
  serveSeed : Int
  ballX : ℚ
  ballY : ℚ
  ballVx : ℚ
  ballVy : ℚ
  leftX : ℚ
  leftY : ℚ
  rightX : ℚ
  rightY : ℚ
  leftVx : ℚ
  rightVx : ℚ
  leftScore : Int
  rightScore : Int
  msgBuf : Bytes

/-- The engine as it is loaded. -/
def Engine.zero : Engine where
  inGame := false
  role := .host
  serveSeed := 0
  ballX := 0
  ballY := 0
  ballVx := 0
  ballVy := 0
  leftX := 0
  leftY := 0
  rightX := 0
  rightY := 0
  leftVx := 0
  rightVx := 0
  leftScore := 0
  rightScore := 0
  msgBuf := List.replicate msgBufSize 0

/-- `paddle_input_x()` and `paddle_input_y()` in one tick. -/
structure Input where
  x : SignType
  y : SignType
  deriving DecidableEq

def clampf (v lo hi : ℚ) : ℚ := if v < lo then lo else if v > hi then hi else v

/-- The cast `(int)v`, of a `float` in the range of `int`. -/
def toInt (v : ℚ) : Int := v.num.tdiv v.den

namespace Engine

variable (e : Engine)

/-! ## One tick -/

def resetBall (direction : Int) : Engine :=
  { e with ballX := halfW - ballSize / 2
           ballY := canvasH / 2 - ballSize / 2
           ballVx := direction * ballSpeedX
           ballVy := if e.serveSeed % 2 = 1 then ballSpeedY else -ballSpeedY
           serveSeed := i32 (e.serveSeed + 1) }

def moveLocalPaddle (i : Input) : Engine :=
  match e.role with
  | .host =>
    let newX := clampf (e.leftX + i.x * paddleSpeedX) leftXMin leftXMax
    { e with leftY := clampf (e.leftY + i.y * paddleSpeedY) 0 (canvasH - paddleH)
             leftVx := newX - e.leftX
             leftX := newX }
  | .guest =>
    let newX := clampf (e.rightX + i.x * paddleSpeedX) rightXMin rightXMax
    { e with rightY := clampf (e.rightY + i.y * paddleSpeedY) 0 (canvasH - paddleH)
             rightVx := newX - e.rightX
             rightX := newX }

/-- The test of `try_paddle_collide`: ball and paddle overlap, and the ball is heading for it. -/
def hits (paddleX paddleY : ℚ) (ballGoingIntoPaddle : Bool) : Bool :=
  if e.ballX + ballSize < paddleX then false
  else if e.ballX > paddleX + paddleW then false
  else if e.ballY + ballSize < paddleY then false
  else if e.ballY > paddleY + paddleH then false
  else ballGoingIntoPaddle

/-- The response of `try_paddle_collide`. -/
def bounce (paddleY paddleVx : ℚ) : Engine :=
  let vx := -e.ballVx + paddleVx * paddleBoost
  let vx := if vx > maxBallVx then maxBallVx else vx
  let vx := if vx < -maxBallVx then -maxBallVx else vx
  let offset := (e.ballY + ballSize / 2 - (paddleY + paddleH / 2)) / (paddleH / 2)
  let offset := if offset < -1 then -1 else offset
  let offset := if offset > 1 then 1 else offset
  { e with ballVx := vx, ballVy := offset * ballSpeedY * (3 / 2) }

def tryPaddleCollide (paddleX paddleY paddleVx : ℚ) (ballGoingIntoPaddle : Bool) : Engine :=
  if e.hits paddleX paddleY ballGoingIntoPaddle then e.bounce paddleY paddleVx else e

/-- `simulate_ball`, up to the walls. -/
def moveBall : Engine :=
  let e := { e with ballX := e.ballX + e.ballVx, ballY := e.ballY + e.ballVy }
  let e := if e.ballY < 0 then { e with ballY := 0, ballVy := -e.ballVy } else e
  if e.ballY > canvasH - ballSize then
    { e with ballY := canvasH - ballSize, ballVy := -e.ballVy }
  else e

/-- `simulate_ball`, the paddles. -/
def hitPaddles : Engine :=
  let e := e.tryPaddleCollide e.leftX e.leftY e.leftVx (e.ballVx < 0)
  e.tryPaddleCollide e.rightX e.rightY e.rightVx (e.ballVx > 0)

/-- `simulate_ball`, the scoring: the loser gets the next serve. -/
def scoreGoal : Engine :=
  if e.ballX + ballSize < 0 then
    { e with rightScore := i32 (e.rightScore + 1) }.resetBall (-1)
  else if e.ballX > canvasW then
    { e with leftScore := i32 (e.leftScore + 1) }.resetBall 1
  else e

def simulateBall : Engine := e.moveBall.hitPaddles.scoreGoal

/-- The numbers of `send_state`. -/
def stateInts : List Int :=
  [toInt e.ballX, toInt e.ballY, toInt e.leftX, toInt e.leftY, toInt e.rightX, toInt e.rightY,
    e.leftScore, e.rightScore]

/-- `send_state`. -/
def sendState : Bytes := ascii "S" ++ spaced e.stateInts

/-- The numbers of `send_paddle`. -/
def paddleInts : List Int := [toInt e.rightX, toInt e.rightY]

/-- `send_paddle`. -/
def sendPaddle : Bytes := ascii "P" ++ spaced e.paddleInts

/-- What `render` hands to `fill_text`. -/
def render : List Bytes := [intToStr e.leftScore, intToStr e.rightScore]

/-! ## Exports -/

def homeY : ℚ := (canvasH - paddleH) / 2

def init : Engine :=
  { e with inGame := false
           role := .host
           serveSeed := 0
           leftX := leftHomeX
           rightX := rightHomeX
           leftY := homeY
           rightY := homeY
           leftVx := 0
           rightVx := 0
           leftScore := 0
           rightScore := 0 }.resetBall 1

def startGame (r : Role) : Engine :=
  { { e with role := r
             leftX := leftHomeX
             rightX := rightHomeX
             leftY := homeY
             rightY := homeY
             leftVx := 0
             rightVx := 0
             leftScore := 0
             rightScore := 0 }.resetBall (if r = Role.host then 1 else -1) with inGame := true }

def stopGame : Engine := { e with inGame := false }

/-- `tick`, and the line it sends. -/
def tick (i : Input) : Engine × Option Bytes :=
  if e.inGame then
    let e := e.moveLocalPaddle i
    match e.role with
    | .host =>
      let e := e.simulateBall
      (e, some e.sendState)
    | .guest => (e, some e.sendPaddle)
  else (e, none)

/-- The host takes over the guest's paddle. -/
def mirror (x y : Int) : Engine :=
  let newX := clampf x rightXMin rightXMax
  { e with rightVx := newX - e.rightX
           rightX := newX
           rightY := clampf y 0 (canvasH - paddleH) }

/-- The guest takes over everything but its own paddle. -/
def adopt (vals : List Int) : Engine :=
  { e with ballX := vals.getD 0 0
           ballY := vals.getD 1 0
           leftX := vals.getD 2 0
           leftY := vals.getD 3 0
           leftScore := vals.getD 6 0
           rightScore := vals.getD 7 0 }

def onPeerMessage (len : Nat) : Engine :=
  if len < 2 then e
  else match e.role with
    | .host =>
      if e.msgBuf.getD 0 0 = 0x50 then
        let i := skipSep e.msgBuf len 1
        let (x, i) := parseInt e.msgBuf len i
        let i := skipSep e.msgBuf len i
        let (y, _) := parseInt e.msgBuf len i
        e.mirror x y
      else e
    | .guest =>
      if e.msgBuf.getD 0 0 = 0x53 then e.adopt (readInts e.msgBuf len 8 1) else e

/-- `writeMsg` of `loader.ts`: the length it returns. -/
def writeMsg (text : Bytes) : Nat × Engine :=
  let len := min text.length (msgBufSize - 1)
  (len, { e with msgBuf := text.take len ++ e.msgBuf.drop len })

/-- A message from the peer. -/
def message (text : Bytes) : Engine :=
  let (len, e) := e.writeMsg text
  e.onPeerMessage len

end Engine

/-! ## Runs -/

/-- What happens to an engine in a game. -/
inductive Turn where
  | tick (i : Input)
  | message (text : Bytes)
  deriving DecidableEq

/-- What happens to an engine. -/
inductive Event where
  | init
  | startGame (r : Role)
  | stopGame
  | turn (t : Turn)
  deriving DecidableEq

def turn : Turn → Engine → Engine
  | .tick i, e => (e.tick i).1
  | .message text, e => e.message text

def step : Event → Engine → Engine
  | .init, e => e.init
  | .startGame r, e => e.startGame r
  | .stopGame, e => e.stopGame
  | .turn t, e => turn t e

/-! ## What a message does -/

/-- The numbers that the engine reads from a message. -/
def fields (k : Nat) (text : Bytes) : List Int := ints k ((text.take (msgBufSize - 1)).drop 1)

/-- The letter of the messages that a role reads. -/
def Role.letter : Role → UInt8
  | .host => 0x50
  | .guest => 0x53

namespace Engine

variable (e : Engine)

/-- A message that the engine reads: of two bytes at least, and with the letter for its role. -/
def Reads (text : Bytes) : Prop :=
  2 ≤ text.length ∧ text.getD 0 0 = e.role.letter

instance (text : Bytes) : Decidable (e.Reads text) := inferInstanceAs (Decidable (_ ∧ _))

/-- What reading a message does: it depends on the bytes of that message alone. -/
def read (text : Bytes) : Engine :=
  match e.role with
  | .host => e.mirror ((fields 2 text).getD 0 0) ((fields 2 text).getD 1 0)
  | .guest => e.adopt (fields 8 text)

theorem onPeerMessage_eq {text : Bytes} {len : Nat} (hlen : len = min text.length 255)
    (hbuf : e.msgBuf.take len = text.take 255) :
    e.onPeerMessage len = if e.Reads text then e.read text else e := by
  have hleft : left e.msgBuf len 1 = (text.take 255).drop 1 := by rw [left, hbuf]
  have hhead : 2 ≤ len → e.msgBuf.getD 0 0 = text.getD 0 0 := fun h => by
    have hget : (e.msgBuf.take len)[0]? = (text.take 255)[0]? := by rw [hbuf]
    rw [List.getElem?_take_of_lt (by omega), List.getElem?_take_of_lt (by omega)] at hget
    rw [List.getD_eq_getElem?_getD, hget, ← List.getD_eq_getElem?_getD]
  by_cases hshort : len < 2
  · have hno : ¬ e.Reads text := fun h => by
      have := h.1
      omega
    rw [onPeerMessage, if_pos hshort, if_neg hno]
  · have htwo : 2 ≤ text.length := by omega
    have hreads : e.Reads text ↔ e.msgBuf.getD 0 0 = e.role.letter := by
      rw [Reads, and_iff_right htwo, hhead (not_lt.mp hshort)]
    simp only [hreads]
    rw [onPeerMessage, if_neg hshort, read]
    cases e.role with
    | host =>
      have hread : [(parseInt e.msgBuf len (skipSep e.msgBuf len 1)).1, _] = fields 2 text :=
        (readInts_eq e.msgBuf len 2 1).trans (by rw [hleft]; rfl)
      rw [← hread]
      rfl
    | guest =>
      simp only [readInts_eq, hleft]
      rfl

/-- A message is what is at the front of the buffer when it is read. -/
theorem take_writeMsg (text : Bytes) :
    (e.writeMsg text).2.msgBuf.take (e.writeMsg text).1 = text.take (msgBufSize - 1) := by
  show (text.take (min text.length 255) ++ _).take (min text.length 255) = text.take 255
  have hlen : (text.take (min text.length 255)).length = min text.length 255 := by simp
  rw [List.take_left' hlen, Nat.min_comm, ← List.take_eq_take_min]

/-- **A message** does what its own bytes say, or nothing. -/
theorem message_eq (text : Bytes) :
    e.message text =
      let e := (e.writeMsg text).2
      if e.Reads text then e.read text else e :=
  onPeerMessage_eq _ rfl (e.take_writeMsg text)

variable {e} in
theorem message_host (hrole : e.role = .host) (text : Bytes) :
    e.message text =
      let e := (e.writeMsg text).2
      if e.Reads text then e.mirror ((fields 2 text).getD 0 0) ((fields 2 text).getD 1 0)
      else e := by
  have hw : (e.writeMsg text).2.role = .host := hrole
  simp only [message_eq, read, hw]

variable {e} in
theorem message_guest (hrole : e.role = .guest) (text : Bytes) :
    e.message text =
      let e := (e.writeMsg text).2
      if e.Reads text then e.adopt (fields 8 text) else e := by
  have hw : (e.writeMsg text).2.role = .guest := hrole
  simp only [message_eq, read, hw]

end Engine

end PongPp.Game
