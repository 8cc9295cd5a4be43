import Mathlib.Data.List.AList
import Mathlib.Logic.Function.Basic
import PongPp.Ws.Frame

/-!
# The signaling server's memory

`World` is everything the signaling code reads and writes: `Rooms::rooms_` and `next_code_`,
`Hub::players_`, the `Room` and `Player` objects behind their pointers, and what was handed to
`Connection::Write` so far. A `PlayerId` (`RoomId`) is the identity of an object and is never
used twice. A weak pointer is the identity it points to; it has expired when that player is no
longer `alive`.
-/

namespace PongPp.Signaling

open Function

abbrev PlayerId := Nat
abbrev RoomId := Nat
abbrev RoomCode := UInt64

structure Room where
  code : RoomCode
  host : Option PlayerId
  guest : Option PlayerId
  deriving DecidableEq, Repr

/-! ## Server messages -/

inductive Reason where
  | unknownVerb
  | joinFailed
  | notInRoom
  deriving DecidableEq, Repr

/-- The lines a server sends. -/
inductive Msg where
  | rooms (codes : List RoomCode)
  | created (code : RoomCode)
  | readyHost
  | readyGuest
  | relay (body : Bytes)
  | peerLeft
  | error (reason : Reason)
  deriving DecidableEq, Repr

def Reason.text : Reason → Bytes
  | .unknownVerb => ascii "unknown_verb"
  | .joinFailed => ascii "join_failed"
  | .notInRoom => ascii "not_in_room"

/-- The line on the wire. -/
def Msg.text : Msg → Bytes
  | .rooms codes => ascii "ROOMS" ++ codes.flatMap fun c => ascii " " ++ toString c.toNat
  | .created code => ascii "CREATED " ++ toString code.toNat
  | .readyHost => ascii "READY host"
  | .readyGuest => ascii "READY guest"
  | .relay body => ascii "RELAY " ++ body
  | .peerLeft => ascii "PEER_LEFT"
  | .error reason => ascii "ERROR " ++ reason.text

/-- What is handed to `Connection::Write`: bytes of the connection itself, or a message that
`Player::Send` puts into a Text frame. -/
inductive Packet where
  | raw (bytes : Bytes)
  | text (msg : Msg)
  deriving DecidableEq, Repr

def Packet.bytes : Packet → Bytes
  | .raw bytes => bytes
  | .text msg => Ws.encodeFrame .text msg.text

/-! ## The state -/

@[ext] structure World where
  /-- `Rooms::rooms_`. -/
  rooms : AList fun _ : RoomCode => RoomId
  /-- `Rooms::next_code_`. -/
  nextCode : RoomCode
  /-- `Hub::players_`. -/
  players : List PlayerId
  /-- The `Room` objects. -/
  room : RoomId → Room
  /-- `Player::room_`. -/
  roomOf : PlayerId → Option RoomId
  /-- Whether the `Player` object exists. -/
  alive : PlayerId → Bool
  /-- The next object identities. -/
  nextRoom : RoomId
  nextPlayer : PlayerId
  /-- Every write so far and the player whose socket it went to, oldest first. -/
  wire : List (PlayerId × Packet)

def World.init : World where
  rooms := ∅
  nextCode := 1
  players := []
  room _ := ⟨0, none, none⟩
  roomOf _ := none
  alive _ := false
  nextRoom := 0
  nextPlayer := 0
  wire := []

/-- The order in which the two unordered containers are walked during one event: any. -/
structure Order where
  rooms : List (Σ _ : RoomCode, RoomId) → List (Σ _ : RoomCode, RoomId)
  players : List PlayerId → List PlayerId
  rooms_perm : ∀ l, (rooms l).Perm l
  players_perm : ∀ l, (players l).Perm l

/-- Both containers in the order they are stored. -/
def Order.id : Order := ⟨fun l => l, fun l => l, fun _ => .rfl, fun _ => .rfl⟩

namespace World

variable (w : World) (o : Order)

/-- `weak_ptr::lock`. -/
def lock (q : Option PlayerId) : Option PlayerId := q.filter w.alive

/-- `weak_ptr::expired`. -/
def expired (q : Option PlayerId) : Bool := (w.lock q).isNone

/-- `Connection::Write`, packet by packet. -/
def emit (ps : List (PlayerId × Packet)) : World := { w with wire := w.wire ++ ps }

/-- `Player::Send`. -/
def send (p : PlayerId) (m : Msg) : World := w.emit [(p, .text m)]

/-- `Rooms::JoinableCodes`. -/
def joinableCodes : List RoomCode :=
  ((o.rooms w.rooms.entries).filter fun e => w.expired (w.room e.2).guest).map (·.1)

def roomsLine : Msg := .rooms (w.joinableCodes o)

/-- `Hub::BroadcastRoomList`; `Rooms::Notify` calls it. -/
def broadcastRoomList : World :=
  let msg := w.roomsLine o
  (o.players w.players).foldl (fun w p => if w.roomOf p = none then w.send p msg else w) w

/-! ## Players enter and leave rooms -/

def enterRoomAsHost (p : PlayerId) (r : RoomId) : World :=
  { w with room := update w.room r { w.room r with host := some p }
           roomOf := update w.roomOf p (some r) }

def enterRoomAsGuest (p : PlayerId) (r : RoomId) : World :=
  { w with room := update w.room r { w.room r with guest := some p }
           roomOf := update w.roomOf p (some r) }

def leaveRoom (p : PlayerId) : World := { w with roomOf := update w.roomOf p none }

/-- `unordered_map::emplace`: an existing key keeps its value. -/
def emplace (m : AList fun _ : RoomCode => RoomId) (c : RoomCode) (r : RoomId) :
    AList fun _ : RoomCode => RoomId :=
  if (m.lookup c).isSome then m else m.insert c r

/-- `make_shared<Room>` with the next code, entered into `rooms_`. -/
def allocRoom : World :=
  { w with rooms := emplace w.rooms w.nextCode w.nextRoom
           nextCode := w.nextCode + 1
           room := update w.room w.nextRoom ⟨w.nextCode, none, none⟩
           nextRoom := w.nextRoom + 1 }

/-- `Rooms::NewRoom`. -/
def newRoom (host : PlayerId) : RoomId × World :=
  let r := w.nextRoom
  (r, ((w.allocRoom).enterRoomAsHost host r).broadcastRoomList o)

/-- `Rooms::Join`. -/
def join (code : RoomCode) (guest : PlayerId) : Option RoomId × World :=
  match w.rooms.lookup code with
  | none => (none, w)
  | some r =>
    if w.expired (w.room r).guest then
      (some r, (w.enterRoomAsGuest guest r).broadcastRoomList o)
    else (none, w)

def eraseRoom (code : RoomCode) : World := { w with rooms := w.rooms.erase code }

/-- `Rooms::Delete`. -/
def delete (code : RoomCode) : World :=
  if (w.rooms.lookup code).isSome then (w.eraseRoom code).broadcastRoomList o else w

/-- The other live occupant of `room`. -/
def otherPlayer (room : Room) (self : PlayerId) : Option PlayerId :=
  ((w.lock room.host).filter (· ≠ self)).or ((w.lock room.guest).filter (· ≠ self))

/-! ## The hub -/

/-- `make_shared<Player>` and `Hub::Register`. -/
def register : World :=
  { w with players := w.players.insert w.nextPlayer
           alive := update w.alive w.nextPlayer true
           roomOf := update w.roomOf w.nextPlayer none
           nextPlayer := w.nextPlayer + 1 }

/-- `Hub::Unregister`. -/
def unregister (p : PlayerId) : World := { w with players := w.players.erase p }

/-- The handler's own pointer to `p` goes away; the object does too unless the hub holds it. -/
def release (p : PlayerId) : World :=
  if p ∈ w.players then w else { w with alive := update w.alive p false }

/-- The first half of `Player::Cleanup`: the peer leaves the room and is told so. -/
def dismissPeer (room : Room) (p : PlayerId) : World :=
  match w.otherPlayer room p with
  | some peer => (w.leaveRoom peer).send peer .peerLeft
  | none => w

/-- `Player::Cleanup`. -/
def cleanup (p : PlayerId) : World :=
  match w.roomOf p with
  | none => w.unregister p
  | some r =>
    (((w.dismissPeer (w.room r) p).delete o (w.room r).code).leaveRoom p).unregister p

end World

/-! ## Client messages -/

inductive Verb where
  | list
  | create
  | join (body : Bytes)
  | relay (body : Bytes)
  | unknown
  deriving DecidableEq, Repr

/-- The verb and body of a message: trailing newlines off, split at the first space. -/
def parseVerb (msg : Bytes) : Verb :=
  let msg := msg.rdropWhile fun b => b == 0x0A || b == 0x0D
  let v := msg.takeWhile (· != 0x20)
  let body := (msg.dropWhile (· != 0x20)).drop 1
  if v = ascii "LIST" then .list
  else if v = ascii "CREATE" then .create
  else if v = ascii "JOIN" then .join body
  else if v = ascii "RELAY" then .relay body
  else .unknown

/-- Room code of a text body; 0 on failure. -/
def parseCode (s : Bytes) : RoomCode :=
  match fromChars s with
  | some (v, []) => v
  | _ => 0

namespace World

variable (w : World) (o : Order)

def handleCreate (p : PlayerId) : World :=
  let (r, w) := w.newRoom o p
  w.send p (.created (w.room r).code)

def handleJoin (p : PlayerId) (code : Bytes) : World :=
  let parsed := parseCode code
  let (room, w) := if parsed ≠ 0 then w.join o parsed p else (none, w)
  match room with
  | none => w.send p (.error .joinFailed)
  | some r =>
    let w :=
      match w.lock (w.room r).host with
      | some host => if host ≠ p then w.send host .readyHost else w
      | none => w
    w.send p .readyGuest

def handleRelay (p : PlayerId) (body : Bytes) : World :=
  match (w.roomOf p).bind fun r => w.otherPlayer (w.room r) p with
  | none => w.send p (.error .notInRoom)
  | some peer => w.send peer (.relay body)

/-- `Player::OnMessage`. -/
def onMessage (p : PlayerId) (msg : Bytes) : World :=
  match parseVerb msg with
  | .list => w.send p (w.roomsLine o)
  | .create => w.handleCreate o p
  | .join body => w.handleJoin o p body
  | .relay body => w.handleRelay p body
  | .unknown => w.send p (.error .unknownVerb)

/-- A per-client handler: `f` runs while the handler holds the player, if it still exists. -/
def handle (p : PlayerId) (f : World → World) : World :=
  if w.alive p then (f w).release p else w

end World

/-! ## Events -/

/-- What happens to the signaling server: a client is accepted, a complete Text or Binary
message of a client arrives, a client's connection ends. -/
inductive Event where
  | connect
  | message (p : PlayerId) (msg : Bytes)
  | disconnect (p : PlayerId)
  deriving DecidableEq, Repr

abbrev Label := Order × Event

def step : Label → World → World
  | (_, .connect), w => w.register
  | (o, .message p msg), w => w.handle p fun w => w.onMessage o p msg
  | (o, .disconnect p), w => w.handle p fun w => w.cleanup o p

/-- The messages of one step. -/
def sent (l : Label) (w : World) : List (PlayerId × Packet) :=
  (step l w).wire.drop w.wire.length

end PongPp.Signaling
