import PongPp.Session.System
import PongPp.Web.Socket
import PongPp.Ws.Upgrade

/-!
# A page in its browser

The browser between a page and the bytes of its connection: it asks for the upgrade, opens the
socket for the one answer it expects, puts what the page says into masked frames and what arrives
out of frames, answers `close()` with a Close frame, and fails the connection over anything else.
A `Tab` is a page with what its browser keeps for it.
-/

namespace PongPp.Net

open Lib Signaling

/-- The upgrade request of a browser: it has a key, and no blank behind it. -/
structure Upgrade extends Ws.Request where
  key_ne : toRequest.keyValue.dropWhile Ws.isBlank ≠ []
  key_tidy : Ws.Tidy toRequest.keyValue

/-- The answer that opens the socket. -/
def Upgrade.accept (q : Upgrade) : Bytes := (Ws.answer (Ws.trim q.keyValue)).2

/-- A request with a key of sixteen zero bytes. -/
def plain : Ws.Request where
  requestLine := ascii "GET / HTTP/1.1"
  fieldLines := [ascii "Sec-WebSocket-Key: AAAAAAAAAAAAAAAAAAAAAA=="]
  requestLine_ok := Ws.untidy.requestLine_ok
  fieldLines_ok := by decide

theorem plain_value : plain.keyValue = ascii " AAAAAAAAAAAAAAAAAAAAAA==" := by decide +kernel

theorem plain_key_ne : plain.keyValue.dropWhile Ws.isBlank ≠ [] := by
  rw [plain_value]
  decide

theorem plain_key_tidy : Ws.Tidy plain.keyValue := by
  intro b hb
  have hlast : (plain.keyValue.dropWhile Ws.isBlank).getLast? = some 0x3D := by
    rw [plain_value]
    decide
  rw [hlast] at hb
  cases hb
  rfl

def Upgrade.plain : Upgrade := ⟨Net.plain, plain_key_ne, plain_key_tidy⟩

structure Tab where
  page : Web.Page
  request : Upgrade
  /-- The masking keys of the frames to come. -/
  keys : Nat → Ws.Key
  /-- Bytes on their way to the server. -/
  out : Bytes
  /-- Bytes that arrived and are not complete yet. -/
  buf : Bytes
  /-- How many of the server's bytes have arrived. -/
  taken : Nat
  /-- A `CREATE` or `JOIN` of the user has not been answered. -/
  asked : Bool

/-- A page that was just opened has sent its upgrade request. -/
def Tab.init (request : Upgrade) (keys : Nat → Ws.Key) : Tab where
  page := .init
  request := request
  keys := keys
  out := request.bytes
  buf := []
  taken := 0
  asked := false

/-- What happens at a page that answers its `CREATE` or `JOIN`. -/
def answers : Web.Event → Bool
  | .wsMessage data => (Web.Signaling.handleMessage data).any Session.isAnswer
  | _ => false

/-- What a frame makes happen at the page, and whether the browser goes on reading. -/
def react (f : Ws.Frame) : List Web.Event × Option Unit :=
  if !f.fin then ([.wsError, .wsClose], some ())
  else
    match f.opcode with
    | .text =>
      match utf8Decode f.payload with
      | some data => ([.wsMessage data], none)
      | none => ([.wsError, .wsClose], some ())
    | .binary | .ping | .pong => ([], none)
    | .close => ([.wsClose], some ())
    | .continuation | .reserved _ => ([.wsError, .wsClose], some ())

namespace Tab

variable (t : Tab)

def sendFrame (opcode : Ws.Op) (payload : Bytes) : Tab :=
  { t with out := t.out ++ Ws.clientFrame opcode (t.keys 0) payload
           keys := fun i => t.keys (i + 1) }

def sendLine (line : Web.Line) : Tab := t.sendFrame .text (utf8Encode line.text)

/-- Something happens at the page: what it says goes out, and a Close frame when it closes its
socket. -/
def happen (e : Web.Event) : Tab :=
  let (page, outs) := t.page.step e
  let lines := Web.linesOf outs
  let asked := (t.asked && !answers e) || lines.any (·.isRequest)
  let t' := lines.foldl sendLine { t with page, asked }
  if t.page.ws = .open ∧ page.ws = .closing then t'.sendFrame .close [] else t'

def happenAll (es : List Web.Event) : Tab := es.foldl happen t

/-- The browser gives up on the connection. -/
def fail : Tab := t.happenAll [.wsError, .wsClose]

/-- The frames at the front of what has arrived. -/
def readFrames : Tab :=
  match Web.frames.drain react t.buf with
  | (es, .bad, rest) => ({ t with buf := rest }.happenAll es).fail
  | (es, _, rest) => { t with buf := rest }.happenAll es

/-- The answer to the upgrade request, or frames, once it is there. -/
def read : Tab :=
  match t.page.ws with
  | .connecting =>
    if t.request.accept <+: t.buf then
      ({ t with buf := t.buf.drop t.request.accept.length }.happen .wsOpen).readFrames
    else if t.buf <+: t.request.accept then t
    else t.fail
  | .open => t.readFrames
  | _ => t

/-- Bytes arrive. -/
def receive (chunk : Bytes) : Tab :=
  { t with buf := t.buf ++ chunk, taken := t.taken + chunk.length }.read

end Tab

end PongPp.Net
